import Mathlib.Data.List.Infix

/-!
# Radix trees of tables in memory

A multi-level lookup table as hardware and kernels keep it: a memory of tables,
each an array of words, where some words of a table name the table one level
below. `child d w` says which table a word `w` read at depth `d` names, if any;
`present w` says whether a word counts as an entry at all.

`tableAt m d f p` follows the indices `p` down from table `f`; `lookup` follows a
whole path and returns the entry it ends at, together with its depth.

A tree is `IsTree`: no table is reached along two paths. Then a write to a table
is seen only by the paths through the written slot, which gives the three rules
that walks over such trees need:

* `lookup_relabel`  — rewriting an inner word that names the same table,
* `lookup_install`  — hanging a blank table into an empty slot,
* `lookup_leaf`     — writing an entry of a lowest table.
-/

namespace FoliOS.Lib

variable {d : Nat}

variable {F I W : Type*}

section Defs

variable (child : Nat → W → Option F) (present : W → Bool) (m : F → I → W)

/-- The table reached from `f`, at depth `d`, along the indices of a path. -/
def tableAt : Nat → F → List I → Option F
  | _, f, [] => some f
  | d, f, i :: p => (child d (m f i)).bind fun g => tableAt (d + 1) g p

/-- The entry a path ends at: the first word that names no table, or the last one. -/
def lookup : Nat → F → List I → Option (Nat × W)
  | _, _, [] => none
  | d, f, i :: p =>
    match if p.isEmpty then none else child d (m f i) with
    | some g => lookup (d + 1) g p
    | none => if present (m f i) then some (d, m f i) else none

/-- No table is reached along two paths of at most `height` indices. -/
def IsTree (height : Nat) (root : F) : Prop :=
  ∀ p q f, p.length ≤ height → q.length ≤ height →
    tableAt child m 0 root p = some f → tableAt child m 0 root q = some f → p = q

end Defs

/-- A memory with one word written. -/
def writeWord [DecidableEq F] [DecidableEq I] (m : F → I → W) (f : F) (i : I) (w : W) : F → I → W :=
  fun g j => if g = f ∧ j = i then w else m g j

variable {child : Nat → W → Option F} {present : W → Bool} {m m' : F → I → W}
  {height : Nat} {root f g : F} {i : I} {p q : List I} {w : W}

theorem tableAt_append (d : Nat) (f : F) (p q : List I) :
    tableAt child m d f (p ++ q) =
      (tableAt child m d f p).bind fun g => tableAt child m (d + p.length) g q := by
  induction p generalizing d f with
  | nil => rfl
  | cons j p ih =>
    rw [List.cons_append, tableAt, tableAt]
    cases child d (m f j) with
    | none => rfl
    | some g =>
      show tableAt child m (d + 1) g (p ++ q) = _
      rw [ih, List.length_cons, show d + (p.length + 1) = d + 1 + p.length by omega]
      rfl

theorem tableAt_snoc (d : Nat) (f : F) (p : List I) (i : I) :
    tableAt child m d f (p ++ [i]) =
      (tableAt child m d f p).bind fun g => child (d + p.length) (m g i) := by
  rw [tableAt_append]
  congr
  funext g
  rw [tableAt]
  cases child (d + p.length) (m g i) <;> rfl

/-! ## What a walk reads -/

/-- Walks over memories that agree on the words the first walk reads, or at least on
the tables these name, end at the same entry. -/
theorem lookup_congr {f : F} {path : List I}
    (h : ∀ q j t, (q ++ [j]) <+: path → tableAt child m d f q = some t → m' t j = m t j ∨
      (q ++ [j] ≠ path ∧ ∃ g, child (d + q.length) (m' t j) = some g ∧
        child (d + q.length) (m t j) = some g)) :
    lookup child present m' d f path = lookup child present m d f path := by
  induction path generalizing d f with
  | nil => rfl
  | cons i p ih =>
    have hhead := h [] i f (by simp) rfl
    have hrest : ∀ g, child d (m f i) = some g →
        lookup child present m' (d + 1) g p = lookup child present m (d + 1) g p := by
      intro g hg
      refine ih fun q j t hq ht => ?_
      have := h (i :: q) j t (by simpa using hq) (by rw [tableAt, hg]; exact ht)
      simpa [show d + (q.length + 1) = d + 1 + q.length by omega] using this
    rw [lookup, lookup]
    rcases hhead with heq | ⟨hne, g, hg', hg⟩
    · rw [heq]
      cases hp : p.isEmpty with
      | true => rfl
      | false =>
        cases hc : child d (m f i) with
        | none => rfl
        | some g => exact hrest g hc
    · have hp : p.isEmpty = false := by
        cases p with
        | nil => simp at hne
        | cons j p => rfl
      simp only [List.length_nil, Nat.add_zero] at hg hg'
      simp only [hp, Bool.false_eq_true, if_false, hg, hg']
      exact hrest g hg

/-- A walk that reaches table `t` along `p` goes on from there. -/
theorem lookup_append {t : F} (h : tableAt child m d f p = some t) (hq : q ≠ []) :
    lookup child present m d f (p ++ q) = lookup child present m (d + p.length) t q := by
  induction p generalizing d f with
  | nil =>
    rw [tableAt, Option.some.injEq] at h
    rw [h]
    rfl
  | cons i p ih =>
    rw [tableAt] at h
    cases hc : child d (m f i) with
    | none => rw [hc] at h; simp at h
    | some g =>
      rw [hc] at h
      have hne : (p ++ q).isEmpty = false := by
        cases q with
        | nil => exact absurd rfl hq
        | cons j q => cases p <;> rfl
      rw [List.cons_append, lookup]
      simp only [hne, Bool.false_eq_true, if_false, hc]
      rw [ih h, List.length_cons, show d + (p.length + 1) = d + 1 + p.length by omega]

/-- A walk that gets to a lowest table ends at its entry there. -/
theorem lookup_snoc {t : F} (h : tableAt child m d f p = some t) :
    lookup child present m d f (p ++ [i]) =
      if present (m t i) then some (d + p.length, m t i) else none := by
  rw [lookup_append h (by simp), lookup]
  rfl

/-- A walk that reaches a word naming no table ends there. -/
theorem lookup_stop {t : F} (h : tableAt child m d f p = some t)
    (hc : child (d + p.length) (m t i) = none) :
    lookup child present m d f (p ++ i :: q) =
      if present (m t i) then some (d + p.length, m t i) else none := by
  rw [lookup_append h (by simp), lookup]
  cases q <;> simp [hc]

theorem tableAt_congr {f : F} {path : List I}
    (h : ∀ q j t, (q ++ [j]) <+: path → tableAt child m d f q = some t →
      child (d + q.length) (m' t j) = child (d + q.length) (m t j)) :
    tableAt child m' d f path = tableAt child m d f path := by
  induction path generalizing d f with
  | nil => rfl
  | cons i p ih =>
    have hhead := h [] i f (by simp) rfl
    simp only [List.length_nil, Nat.add_zero] at hhead
    rw [tableAt, tableAt, hhead]
    cases hc : child d (m f i) with
    | none => rfl
    | some g =>
      refine ih fun q j t hq ht => ?_
      have := h (i :: q) j t (by simpa using hq) (by rw [tableAt, hc]; exact ht)
      simpa [show d + (q.length + 1) = d + 1 + q.length by omega] using this

theorem length_lt_of_snoc_prefix {q path : List I} {j : I} (h : (q ++ [j]) <+: path) :
    q.length < path.length := by
  have := h.length_le
  rw [List.length_append, List.length_singleton] at this
  omega

theorem IsTree.congr (hT : IsTree child m height root)
    (h : ∀ q, q.length ≤ height → tableAt child m' 0 root q = tableAt child m 0 root q) :
    IsTree child m' height root := by
  intro q q' t hq hq' ht ht'
  rw [h q hq] at ht
  rw [h q' hq'] at ht'
  exact hT q q' t hq hq' ht ht'

/-! ## Memories that agree on the tables -/

section

variable (h : ∀ q t, q.length ≤ height → tableAt child m 0 root q = some t → ∀ j, m' t j = m t j)
include h

theorem tableAt_of_agree (hq : q.length ≤ height) :
    tableAt child m' 0 root q = tableAt child m 0 root q := by
  refine tableAt_congr fun q' j t hpre ht => ?_
  have := length_lt_of_snoc_prefix hpre
  rw [h q' t (by omega) ht]

theorem lookup_of_agree {path : List I} (hpath : path.length = height + 1) :
    lookup child present m' 0 root path = lookup child present m 0 root path := by
  refine lookup_congr fun q' j t hpre ht => .inl ?_
  have := length_lt_of_snoc_prefix hpre
  exact h q' t (by omega) ht j

end

/-! ## Writes -/

variable [DecidableEq F] [DecidableEq I]

theorem writeWord_same (m : F → I → W) (f : F) (i : I) (w : W) : writeWord m f i w f i = w :=
  if_pos ⟨rfl, rfl⟩

theorem writeWord_of_ne {j : I} (h : ¬(g = f ∧ j = i)) : writeWord m f i w g j = m g j := if_neg h

section Relabel

variable (hT : IsTree child m height root) (hp : tableAt child m 0 root p = some f)
  (hlen : p.length < height)

include hT hp hlen

theorem tableAt_relabel (hc : child p.length w = child p.length (m f i)) (hq : q.length ≤ height) :
    tableAt child (writeWord m f i w) 0 root q = tableAt child m 0 root q := by
  refine tableAt_congr fun q' j t hpre ht => ?_
  have := length_lt_of_snoc_prefix hpre
  by_cases hw : t = f ∧ j = i
  · obtain ⟨rfl, rfl⟩ := hw
    have hqp := hT q' p t (by omega) (by omega) ht hp
    rw [writeWord_same, Nat.zero_add, hqp]
    exact hc
  · rw [writeWord_of_ne hw]

/-- Rewriting an inner word that still names the same table changes no lookup. -/
theorem lookup_relabel (hw : child p.length w = some g) (hm : child p.length (m f i) = some g)
    {path : List I} (hpath : path.length = height + 1) :
    lookup child present (writeWord m f i w) 0 root path = lookup child present m 0 root path := by
  refine lookup_congr fun q' j t hpre ht => ?_
  have := length_lt_of_snoc_prefix hpre
  by_cases hw' : t = f ∧ j = i
  · obtain ⟨rfl, rfl⟩ := hw'
    have hqp := hT q' p t (by omega) (by omega) ht hp
    refine .inr ⟨fun he => ?_, g, ?_, ?_⟩
    · have := congrArg List.length he
      rw [List.length_append, List.length_singleton, hqp] at this
      omega
    · rw [writeWord_same, Nat.zero_add, hqp]
      exact hw
    · rw [Nat.zero_add, hqp]
      exact hm
  · exact .inl (writeWord_of_ne hw')

theorem IsTree.relabel (hc : child p.length w = child p.length (m f i)) :
    IsTree child (writeWord m f i w) height root :=
  hT.congr fun _ => tableAt_relabel hT hp hlen hc

end Relabel

section Install

variable (hT : IsTree child m height root) (hp : tableAt child m 0 root p = some f)
  (hlen : p.length < height) (hempty : child p.length (m f i) = none)
  (hw : child p.length w = some g) (hblank : ∀ d j, child d (m g j) = none)
  (hfresh : ∀ q, q.length ≤ height → tableAt child m 0 root q ≠ some g)

include hT hp hlen hempty hw hblank hfresh

/-- The tables after hanging the blank table `g` into an empty slot. -/
theorem tableAt_install (hq : q.length ≤ height) :
    tableAt child (writeWord m f i w) 0 root q =
      if q = p ++ [i] then some g else tableAt child m 0 root q := by
  have hgf : g ≠ f := fun h => hfresh p (by omega) (h ▸ hp)
  -- paths that avoid the slot are as before
  have hoff : ∀ q, q.length ≤ height → ¬((p ++ [i]) <+: q) →
      tableAt child (writeWord m f i w) 0 root q = tableAt child m 0 root q := by
    intro q hq hnot
    refine tableAt_congr fun q' j t hpre ht => ?_
    have := length_lt_of_snoc_prefix hpre
    by_cases hw' : t = f ∧ j = i
    · obtain ⟨rfl, rfl⟩ := hw'
      exact absurd (hT q' p t (by omega) (by omega) ht hp ▸ hpre) hnot
    · rw [writeWord_of_ne hw']
  have hslot : tableAt child (writeWord m f i w) 0 root (p ++ [i]) = some g := by
    have hnot : ¬((p ++ [i]) <+: p) := fun h => by
      have := length_lt_of_snoc_prefix h
      omega
    rw [tableAt_snoc, hoff p (by omega) hnot, hp]
    show child (0 + p.length) (writeWord m f i w f i) = some g
    rw [writeWord_same, Nat.zero_add]
    exact hw
  by_cases hpre : (p ++ [i]) <+: q
  · obtain ⟨r, rfl⟩ := hpre
    cases r with
    | nil => rw [List.append_nil, if_pos rfl, hslot]
    | cons j r =>
      have hne : p ++ [i] ++ j :: r ≠ p ++ [i] := by simp
      rw [if_neg hne, tableAt_append, hslot, tableAt_append, tableAt_snoc, hp]
      show tableAt child (writeWord m f i w) _ g (j :: r) =
        ((child (0 + p.length) (m f i)).bind fun t => tableAt child m _ t (j :: r))
      rw [Nat.zero_add p.length, hempty, tableAt, writeWord_of_ne (fun h => hgf h.1), hblank]
      rfl
  · have hne : q ≠ p ++ [i] := fun h => hpre (h ▸ List.prefix_rfl)
    rw [if_neg hne]
    exact hoff q hq hpre

theorem IsTree.install : IsTree child (writeWord m f i w) height root := by
  intro q q' t hq hq' ht ht'
  rw [tableAt_install hT hp hlen hempty hw hblank hfresh hq] at ht
  rw [tableAt_install hT hp hlen hempty hw hblank hfresh hq'] at ht'
  split at ht
  · rename_i hqp
    split at ht'
    · rename_i hqp'
      rw [hqp, hqp']
    · exact absurd (ht ▸ ht') (hfresh q' hq')
  · split at ht'
    · exact absurd (ht' ▸ ht) (hfresh q hq)
    · exact hT q q' t hq hq' ht ht'

/-- Hanging a blank table into an empty slot changes no lookup. -/
theorem lookup_install (habsent : present (m f i) = false)
    (hblank' : ∀ j, present (m g j) = false) {path : List I} (hpath : path.length = height + 1) :
    lookup child present (writeWord m f i w) 0 root path = lookup child present m 0 root path := by
  have hgf : g ≠ f := fun h => hfresh p (by omega) (h ▸ hp)
  by_cases hpre : (p ++ [i]) <+: path
  · obtain ⟨r, rfl⟩ := hpre
    have hslot := tableAt_install hT hp hlen hempty hw hblank hfresh
      (q := p ++ [i]) (by rw [List.length_append, List.length_singleton]; omega)
    rw [if_pos rfl] at hslot
    cases r with
    | nil =>
      rw [List.append_nil, List.length_append, List.length_singleton] at hpath
      omega
    | cons j r =>
      have hbefore : lookup child present m 0 root (p ++ [i] ++ j :: r) = none := by
        rw [List.append_assoc, List.singleton_append,
          lookup_stop hp (by rw [Nat.zero_add]; exact hempty), habsent]
        rfl
      rw [hbefore, lookup_append hslot (by simp), lookup]
      simp only [writeWord_of_ne (m := m) (w := w) (fun h : g = f ∧ j = i => hgf h.1), hblank,
        hblank']
      cases r <;> rfl
  · refine lookup_congr fun q' j t hpre' ht => .inl ?_
    have := length_lt_of_snoc_prefix hpre'
    refine writeWord_of_ne ?_
    rintro ⟨rfl, rfl⟩
    exact hpre (hT q' p t (by omega) (by omega) ht hp ▸ hpre')

end Install

section Leaf

variable (hT : IsTree child m height root) (hp : tableAt child m 0 root p = some f)
  (hlen : p.length = height)

include hT hp hlen

theorem tableAt_leaf (hq : q.length ≤ height) :
    tableAt child (writeWord m f i w) 0 root q = tableAt child m 0 root q := by
  refine tableAt_congr fun q' j t hpre ht => ?_
  have := length_lt_of_snoc_prefix hpre
  rw [writeWord_of_ne]
  rintro ⟨rfl, -⟩
  have := congrArg List.length (hT q' p t (by omega) (by omega) ht hp)
  omega

theorem IsTree.leaf : IsTree child (writeWord m f i w) height root :=
  hT.congr fun _ => tableAt_leaf hT hp hlen

/-- Writing an entry of a lowest table changes only the lookup of its own path. -/
theorem lookup_leaf {path : List I} (hpath : path.length = height + 1) :
    lookup child present (writeWord m f i w) 0 root path =
      if path = p ++ [i] then (if present w then some (height, w) else none)
      else lookup child present m 0 root path := by
  split
  · rename_i heq
    rw [heq, lookup_snoc ((tableAt_leaf hT hp hlen hlen.le).trans hp), writeWord_same, Nat.zero_add,
      hlen]
  · rename_i hne
    refine lookup_congr fun q' j t hpre ht => .inl (writeWord_of_ne ?_)
    have := length_lt_of_snoc_prefix hpre
    rintro ⟨rfl, rfl⟩
    have hqp := hT q' p t (by omega) (by omega) ht hp
    refine hne ((hqp ▸ hpre).eq_of_length ?_).symm
    rw [List.length_append, List.length_singleton, hlen, hpath]

end Leaf

end FoliOS.Lib
