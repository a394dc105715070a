import FoliOS.Strata.Pmm.Bitmap

/-!
# Strata — what the frame tables stand for

`decode` reads the state of a frame off the three levels. `Wf` collects what keeps
that reading together: no table or extended entry stands in two places, bitmaps
are sound, and everything in use comes from the part of its pool that has been
handed out. Hints play no part in any of this: slots are compared by their `Region`.

* `Changes` — a write of one level gives a range of frames a new state and does
  nothing else.
* `install_keeps`, `installExt_keeps` — a new table or extended entry that says of
  each part what was said of the whole changes no frame, if it is used nowhere else.
-/

namespace FoliOS.Strata.Pmm

open Function Lib

/-- A slot without its hints. -/
inductive Region where
  | unusable
  | hugeAlloc
  | free
  | table (t : TableRef)
  deriving DecidableEq

def Slot.region : Slot → Region
  | .unusable => .unusable
  | .hugeAlloc => .hugeAlloc
  | .free => .free
  | .table t _ => .table t

def State.region (s : State) (i : Nat) : Region := (s.atpa i).region

def decodeEntry (exts : ExtRef → Nat → Flag) (k : Nat) : Entry → Flag
  | .unusable => .unusable
  | .ext x => exts x k
  | .bitmap b => if b.getLsbD k then .used else .free

/-- The state of a frame. -/
def decode (s : State) (f : Nat) : Flag :=
  match s.region (f / tableFrames) with
  | .unusable => .unusable
  | .hugeAlloc => .used
  | .free => .free
  | .table t => decodeEntry s.exts (f % entryFrames) (s.tables t (f % tableFrames / entryFrames))

/-- The tables are in order. -/
structure Wf (s : State) : Prop where
  outside : ∀ i, slotCount ≤ i → s.region i = .unusable
  tables  : ∀ i j t, s.region i = .table t → s.region j = .table t → i = j
  exts    : ∀ i j t t' e e' x, s.region i = .table t → s.region j = .table t' →
              e < tableEntries → e' < tableEntries →
              s.tables t e = .ext x → s.tables t' e' = .ext x → t = t' ∧ e = e'
  bitmaps : ∀ i t e b, s.region i = .table t → e < tableEntries →
              s.tables t e = .bitmap b → BitmapOk b
  early   : ∀ i k, s.region i = .table (.early k) → k < s.earlyTables
  dynamic : ∀ i pfn, s.region i = .table (.frame pfn) →
              pfn ∉ s.tablePool ∧ ⟨pfn, 0, .pool .tables⟩ ∈ s.runs
  earlyExt : ∀ i t e x, s.region i = .table t → e < tableEntries → s.tables t e = .ext x →
              ∃ k, x = .early k ∧ k < s.earlyExts
  nodup   : s.tablePool.Nodup
  pooled  : ∀ pfn ∈ s.tablePool, ⟨pfn, 0, .pool .tables⟩ ∈ s.runs
  extPooled : ∀ x ∈ s.extPool, ∃ pfn k, x = .frame pfn k ∧ ⟨pfn, 0, .pool .exts⟩ ∈ s.runs

/-! ## Frames and their places -/

/-- The frame at flag `k` of entry `e` of slot `i`. -/
def frameAt (i e k : Nat) : Nat := i * tableFrames + e * entryFrames + k

theorem frameAt_slot {i e k : Nat} (he : e < tableEntries) (hk : k < entryFrames) :
    frameAt i e k / tableFrames = i ∧ frameAt i e k % tableFrames / entryFrames = e ∧
      frameAt i e k % entryFrames = k := by
  simp only [frameAt, tableFrames, entryFrames, tableEntries] at *
  omega

/-- A frame in a slot with a table. -/
theorem decode_table {s : State} {f : Nat} {t : TableRef}
    (h : s.region (f / tableFrames) = .table t) :
    decode s f = decodeEntry s.exts (f % entryFrames)
      (s.tables t (f % tableFrames / entryFrames)) := by
  rw [decode, h]

/-- Two states decode a frame alike if its slot and its entry do. -/
theorem decode_congr_at {s s' : State} {f : Nat}
    (hr : s'.region (f / tableFrames) = s.region (f / tableFrames))
    (he : ∀ t, s.region (f / tableFrames) = .table t →
      decodeEntry s'.exts (f % entryFrames) (s'.tables t (f % tableFrames / entryFrames)) =
        decodeEntry s.exts (f % entryFrames) (s.tables t (f % tableFrames / entryFrames))) :
    decode s' f = decode s f := by
  unfold decode
  rw [hr]
  cases h : s.region (f / tableFrames) with
  | table t => exact he t h
  | _ => rfl

variable {i j k n : Nat} {t : TableRef} {v : Entry}

/-! ## The frames of slots, entries and runs -/

/-- The frames of whole slots. -/
theorem cover_slots (i n f : Nat) :
    i * tableFrames ≤ f ∧ f < i * tableFrames + n * tableFrames ↔
      i ≤ f / tableFrames ∧ f / tableFrames < i + n := by
  simp only [tableFrames]
  omega

/-- The frames of a part of an entry. -/
theorem cover_frames {f : Nat} (hj : j < tableEntries) (hk : k + n ≤ entryFrames) :
    frameAt i j k ≤ f ∧ f < frameAt i j k + n ↔
      f / tableFrames = i ∧ f % tableFrames / entryFrames = j ∧
        k ≤ f % entryFrames ∧ f % entryFrames < k + n := by
  simp only [frameAt, tableFrames, entryFrames, tableEntries] at *
  omega

theorem entry_lt (f : Nat) : f % tableFrames / entryFrames < tableEntries := by
  simp only [tableFrames, entryFrames, tableEntries]
  omega

/-! ## Changes to a range of frames -/

/-- Slots with a table keep it, and its bitmap entries stay the bitmap entries. -/
def KeepsTables (s s' : State) : Prop :=
  ∀ i t, s.region i = .table t → s'.region i = .table t ∧
    ∀ e, e < tableEntries → ((∃ b, s'.tables t e = .bitmap b) ↔ ∃ b, s.tables t e = .bitmap b)

/-- A write to the tables gives `n` frames from `b` on the state `v`. -/
structure Changes (s s' : State) (b n : Nat) (v : Flag) : Prop where
  wf     : Wf s'
  decode : ∀ f, decode s' f = if b ≤ f ∧ f < b + n then v else decode s f
  keeps  : KeepsTables s s'
  huge   : ∀ i, s.region i = .hugeAlloc → ¬(b ≤ i * tableFrames ∧ i * tableFrames < b + n) →
             s'.region i = .hugeAlloc
  cells  : s' = { s with atpa := s'.atpa, tables := s'.tables, exts := s'.exts }

variable {s s' : State}

@[simp] theorem setEntries_region (s : State) (t : TableRef) (j n : Nat) (v : Entry) (i : Nat) :
    (s.setEntries t j n v).region i = s.region i := rfl

theorem setEntries_tables (s : State) (t t' : TableRef) (j n e : Nat) (v : Entry) :
    (s.setEntries t j n v).tables t' e = if t' = t ∧ j ≤ e ∧
    e < j + n then v else s.tables t' e := by
  by_cases ht : t' = t
  · subst ht
    simp only [State.setEntries, update_self, true_and]
  · simp only [State.setEntries, update_of_ne ht, ht, false_and, if_false]

/-- A table with entries overwritten by bitmaps or marked unusable. -/
theorem Wf.setEntries (hw : Wf s) (hv : ∀ x, v ≠ .ext x) (hb : ∀ b, v = .bitmap b → BitmapOk b) :
    Wf (s.setEntries t j n v) := by
  have hext : ∀ t' e x, (s.setEntries t j n v).tables t' e = .ext x → s.tables t' e = .ext x := by
    intro t' e x h
    rw [setEntries_tables] at h
    split at h
    · exact absurd h (hv x)
    · exact h
  refine ⟨hw.outside, hw.tables, fun i i' t' t'' e e' x hi hi' he he' hx hx' => ?_,
    fun i t' e b' hi he h => ?_, hw.early, hw.dynamic, fun i t' e x hi he hx => ?_, hw.nodup,
    hw.pooled,
    hw.extPooled⟩
  · exact hw.exts i i' t' t'' e e' x hi hi' he he' (hext _ _ _ hx) (hext _ _ _ hx')
  · rw [setEntries_tables] at h
    split at h
    · exact hb b' h
    · exact hw.bitmaps i t' e b' hi he h
  · exact hw.earlyExt i t' e x hi he (hext _ _ _ hx)

/-- Slots that lose their table do no harm. -/
theorem Wf.of_sub (hw : Wf s) (hout : ∀ i, slotCount ≤ i → s'.region i = .unusable)
    (hreg : ∀ i t, s'.region i = .table t → s.region i = .table t)
    (hcells : s' = { s with atpa := s'.atpa }) : Wf s' := by
  -- what is not of the pointer array is read from `s`
  rw [hcells]
  refine ⟨hout, fun j j' t h h' => ?_, fun j j' t t' e e' x h h' => ?_, fun j t e b h => ?_,
    fun j k h => ?_, fun j p h => ?_, fun j t e x h => ?_, hw.nodup, hw.pooled, hw.extPooled⟩
  · exact hw.tables j j' t (hreg _ _ h) (hreg _ _ h')
  · exact hw.exts j j' t t' e e' x (hreg _ _ h) (hreg _ _ h')
  · exact hw.bitmaps j t e b (hreg _ _ h)
  · exact hw.early j k (hreg _ _ h)
  · exact hw.dynamic j p (hreg _ _ h)
  · exact hw.earlyExt j t e x (hreg _ _ h)

/-- Writing entries of the table of slot `i` changes frames of that slot only. -/
theorem decode_setEntries (hw : Wf s) (hi : s.region i = .table t) (f : Nat) :
    decode (s.setEntries t j n v) f =
      if f / tableFrames = i ∧ j ≤ f % tableFrames / entryFrames ∧
        f % tableFrames / entryFrames < j + n
      then decodeEntry s.exts (f % entryFrames) v else decode s f := by
  split
  · rename_i hin
    rw [decode_table (by rw [setEntries_region, hin.1, hi]), setEntries_tables, if_pos ⟨rfl, hin.2⟩]
    rfl
  · rename_i hout
    refine decode_congr_at rfl fun t' ht' => ?_
    rw [setEntries_tables, if_neg]
    · rfl
    · rintro ⟨rfl, hin⟩
      exact hout ⟨hw.tables _ _ _ ht' hi, hin⟩

theorem setFlags_exts (s : State) (x x' : ExtRef) (k n e : Nat) (v : Flag) :
    (s.setFlags x k n v).exts x' e = if x' = x ∧ k ≤ e ∧ e < k + n then v else s.exts x' e := by
  by_cases hx : x' = x
  · subst hx
    simp only [State.setFlags, update_self, true_and]
  · simp only [State.setFlags, update_of_ne hx, hx, false_and, if_false]

/-- Flags `k` to `k + n - 1` of the extended entry at entry `j` of slot `i`. -/
theorem setFlags_changes {x : ExtRef} {v : Flag} (hw : Wf s) (hi : s.region i = .table t)
    (hj : j < tableEntries) (hk : k + n ≤ entryFrames) (hx : s.tables t j = .ext x) :
    Changes s (s.setFlags x k n v) (frameAt i j k) n v := by
  refine ⟨⟨hw.outside, hw.tables, hw.exts, hw.bitmaps, hw.early, hw.dynamic, hw.earlyExt, hw.nodup,
    hw.pooled, hw.extPooled⟩, fun f => ?_, fun i' t' hi' => ⟨hi', fun _ _ => Iff.rfl⟩,
    fun _ h _ => h, rfl⟩
  simp only [cover_frames hj hk]
  split
  · rename_i hin
    obtain ⟨hs, he, hin⟩ := hin
    rw [decode_table (by rw [hs]; exact hi), he]
    show decodeEntry (s.setFlags x k n v).exts (f % entryFrames) (s.tables t j) = v
    rw [hx, decodeEntry, setFlags_exts, if_pos ⟨rfl, hin⟩]
  · rename_i hout
    refine decode_congr_at rfl fun t' ht' => ?_
    show decodeEntry (s.setFlags x k n v).exts _ (s.tables t' _) = _
    cases he : s.tables t' (f % tableFrames / entryFrames) with
    | ext x' =>
      rw [decodeEntry, decodeEntry, setFlags_exts, if_neg]
      rintro ⟨rfl, hin⟩
      obtain ⟨rfl, hej⟩ := hw.exts _ _ _ _ _ _ _ ht' hi (entry_lt f) hj he hx
      exact hout ⟨hw.tables _ _ _ ht' hi, hej, hin⟩
    | _ => rfl

/-! ## The end of an allocation -/

/-- The metadata after `create_metadata`. -/
def State.newMetadata (s : State) (b : Nat) (owner : Option Nat) (o : Nat) : Nat → Metadata :=
  if s.metadataAvailable then update s.metadata b ⟨1, o, owner⟩ else s.metadata

/-- An owner who is charged for `2 ^ o` frames. -/
def Owner.charge (w : Owner) (o : Nat) : Owner :=
  let usage := w.pageUsageCount + 2 ^ o
  ⟨w.closed, w.refs + 1, usage, if w.pageUsagePeakCount < usage then usage
    else w.pageUsagePeakCount⟩

/-- The owners after `create_metadata`. -/
def State.newOwners (s : State) (owner : Option Nat) (o : Nat) : Nat → Owner :=
  if s.metadataAvailable then
    match owner with
    | none => s.owners
    | some w => update s.owners w ((s.owners w).charge o)
  else s.owners

/-- The fields a new run changes. -/
theorem createMetadata_eq (s : State) (b o : Nat) (owner : Option Nat) :
    createMetadata s b owner o =
      { s with metadata := s.newMetadata b owner o, owners := s.newOwners owner o } := by
  unfold createMetadata State.newMetadata State.newOwners
  by_cases hm : s.metadataAvailable = true
  · simp only [hm, Bool.not_true, Bool.false_eq_true, if_false, if_true]
    cases owner <;> rfl
  · rw [if_pos (by simp [hm]), if_neg hm, if_neg hm]

/-- The holder of a run that is handed out now. -/
def State.newHolder (s : State) : Holder := if s.metadataAvailable then .client else .pageTable

/-- `free_frames` after `2 ^ o` frames were taken. -/
def State.freeAfter (s : State) (o : Nat) : Nat := (s.freeFrames + sizeLimit - 2 ^ o) % sizeLimit

/-- The fields `finish` writes. -/
def State.recorded (s : State) (md : Nat → Metadata) (ow : Nat → Owner) (ff : Nat) (rs : List Run) :
    State :=
  { s with metadata := md, owners := ow, freeFrames := ff, runs := rs }

/-- The state `finish` leaves. -/
def State.finished (s : State) (b : Nat) (owner : Option Nat) (o : Nat) : State :=
  s.recorded (s.newMetadata b owner o) (s.newOwners owner o) (s.freeAfter o)
    (⟨b, o, s.newHolder⟩ :: s.runs)

theorem finish_eq (s : State) (b o : Nat) (owner : Option Nat) :
    finish s b owner o = some (.success, some b, s.finished b owner o) := by
  rw [finish, createMetadata_eq]
  rfl

/-! ## New tables and extended entries -/

variable {asFree u : Bool}

/-- What `get_or_create_table` writes into a new table. -/
def freshEntry (asFree : Bool) : Entry := if asFree then .bitmap bmpFree else .unusable

theorem freshEntry_ne_ext (asFree : Bool) (x : ExtRef) : freshEntry asFree ≠ .ext x := by
  cases asFree <;> simp [freshEntry]

theorem freshEntry_bitmap {b : Bitmap} (h : freshEntry asFree = .bitmap b) : BitmapOk b := by
  cases asFree with
  | false => simp [freshEntry] at h
  | true => exact Entry.bitmap.inj h ▸ bmpFree_ok

theorem install_region (s : State) (i j : Nat) (t : TableRef) (asFree : Bool) :
    (s.install i t asFree).region j = if j = i then .table t else s.region j := by
  by_cases hj : j = i
  · subst hj
    simp [State.region, State.install, Slot.region]
  · simp [State.region, State.install, hj]

theorem install_tables (s : State) (i e : Nat) (t t' : TableRef) (asFree : Bool) :
    (s.install i t asFree).tables t' e = if t' = t then freshEntry asFree else s.tables t' e := by
  by_cases ht : t' = t
  · subst ht
    simp [State.install, freshEntry]
  · simp [State.install, ht]

theorem install_overwritten (asFree : Bool) (h : ∀ t', s.region i ≠ .table t') :
    (s.install i t asFree).overwritten = s.overwritten := by
  cases hslot : s.atpa i with
  | table t' hint => exact absurd (by rw [State.region, hslot, Slot.region]) (h t')
  | _ => simp [State.install, hslot]

/-- A table that no slot has yet, and that has left its pool. -/
structure NewTable (s : State) (t : TableRef) : Prop where
  unused  : ∀ j, s.region j ≠ .table t
  early   : ∀ k, t = .early k → k < s.earlyTables
  dynamic : ∀ pfn, t = .frame pfn → pfn ∉ s.tablePool ∧ ⟨pfn, 0, .pool .tables⟩ ∈ s.runs

/-- A new table keeps the invariant. -/
theorem Wf.install (hw : Wf s) (hi : i < slotCount) (hnew : NewTable s t) :
    Wf (s.install i t asFree) := by
  have hold : ∀ j t', (s.install i t asFree).region j = .table t' → t' ≠ t →
      s.region j = .table t' := by
    intro j t' h hne
    rw [install_region] at h
    split at h
    · exact absurd (Region.table.inj h).symm hne
    · exact h
  have hext : ∀ j t' e x, (s.install i t asFree).region j = .table t' →
      (s.install i t asFree).tables t' e = .ext x → s.region j = .table t' ∧
      s.tables t' e = .ext x := by
    intro j t' e x h hx
    rw [install_tables] at hx
    split at hx
    · exact absurd hx (freshEntry_ne_ext _ _)
    · rename_i hne
      exact ⟨hold j t' h hne, hx⟩
  refine ⟨fun j hj => ?_, fun j j' t' h h' => ?_, fun j j' t1 t2 e e' x h h' he he' hx hx' => ?_,
    fun j t' e b h he hb => ?_, fun j k h => ?_, fun j p h => ?_, fun j t' e x h he hx => ?_,
    hw.nodup, hw.pooled, hw.extPooled⟩
  · rw [install_region, if_neg (by omega)]
    exact hw.outside j hj
  · by_cases ht : t' = t
    · -- only slot `i` has the new table
      subst ht
      have honly : ∀ k, (s.install i t' asFree).region k = .table t' → k = i := by
        intro k hk
        rw [install_region] at hk
        split at hk
        · assumption
        · exact absurd hk (hnew.unused k)
      rw [honly j h, honly j' h']
    · exact hw.tables j j' t' (hold j t' h ht) (hold j' t' h' ht)
  · obtain ⟨h, hx⟩ := hext j t1 e x h hx
    obtain ⟨h', hx'⟩ := hext j' t2 e' x h' hx'
    exact hw.exts j j' t1 t2 e e' x h h' he he' hx hx'
  · rw [install_tables] at hb
    split at hb
    · exact freshEntry_bitmap hb
    · rename_i hne
      exact hw.bitmaps j t' e b (hold j t' h hne) he hb
  · by_cases ht : .early k = t
    · exact hnew.early k ht.symm
    · exact hw.early j k (hold j _ h ht)
  · by_cases ht : .frame p = t
    · exact hnew.dynamic p ht.symm
    · exact hw.dynamic j p (hold j _ h ht)
  · obtain ⟨h, hx⟩ := hext j t' e x h hx
    exact hw.earlyExt j t' e x h he hx

/-- **A new table says of each frame what the slot said of all.** -/
theorem install_keeps (hnew : NewTable s t)
    (hslot : s.region i = if asFree then .free else .unusable) (f : Nat) :
    decode (s.install i t asFree) f = decode s f := by
  by_cases hf : f / tableFrames = i
  · rw [decode_table (t := t) (by rw [install_region, if_pos hf]), install_tables, if_pos rfl,
      decode, hf, hslot]
    cases asFree with
    | false => rfl
    | true => simp [freshEntry, decodeEntry, bmpFree]
  · refine decode_congr_at (by rw [install_region, if_neg hf]) fun t' ht' => ?_
    rw [install_tables, if_neg (fun heq => hnew.unused _ (heq ▸ ht'))]
    rfl

theorem installExt_tables (s : State) (t t' : TableRef) (j e : Nat) (x : ExtRef) (u : Bool) :
    (s.installExt t j x u).tables t' e = if t' = t ∧ e = j then .ext x else s.tables t' e := by
  rw [State.installExt, setEntries_tables]
  simp only [show j ≤ e ∧ e < j + 1 ↔ e = j by omega]

theorem installExt_exts (s : State) (t : TableRef) (j k : Nat) (x x' : ExtRef) (u : Bool) :
    (s.installExt t j x u).exts x' k =
      if x' = x then (if u then .unusable else .free) else s.exts x' k := by
  by_cases hx : x' = x
  · subst hx
    simp [State.installExt, State.setEntries]
  · simp [State.installExt, State.setEntries, hx]

/-- No entry of a table in use has the extended entry `x`. -/
def UnusedExt (s : State) (x : ExtRef) : Prop :=
  ∀ i t e, s.region i = .table t → e < tableEntries → s.tables t e ≠ .ext x

/-- A new extended entry keeps the invariant. -/
theorem Wf.installExt {k : Nat} (hw : Wf s) (hnew : UnusedExt s (.early k)) (hk : k < s.earlyExts) :
    Wf (s.installExt t j (.early k) u) := by
  have hcases : ∀ t' e x, (s.installExt t j (.early k) u).tables t' e = .ext x →
      (t' = t ∧ e = j ∧ x = .early k) ∨ s.tables t' e = .ext x := by
    intro t' e x hx
    rw [installExt_tables] at hx
    split at hx
    · rename_i hin
      exact Or.inl ⟨hin.1, hin.2, (Entry.ext.inj hx).symm⟩
    · exact Or.inr hx
  refine ⟨hw.outside, hw.tables, fun i1 i2 t1 t2 e e' x h h' he he' hx hx' => ?_,
    fun i' t' e b h he hb => ?_, hw.early, hw.dynamic, fun i' t' e x h he hx => ?_, hw.nodup,
    hw.pooled, hw.extPooled⟩
  · rcases hcases _ _ _ hx with ⟨ht1, he1, hx1⟩ | hx1 <;>
      rcases hcases _ _ _ hx' with ⟨ht2, he2, hx2⟩ | hx2
    · exact ⟨ht1.trans ht2.symm, he1.trans he2.symm⟩
    · exact absurd (hx1 ▸ hx2) (hnew i2 _ _ h' he')
    · exact absurd (hx2 ▸ hx1) (hnew i1 _ _ h he)
    · exact hw.exts i1 i2 t1 t2 e e' x h h' he he' hx1 hx2
  · rw [installExt_tables] at hb
    split at hb
    · simp at hb
    · exact hw.bitmaps i' t' e b h he hb
  · rcases hcases _ _ _ hx with ⟨-, -, rfl⟩ | hx
    · exact ⟨k, rfl, hk⟩
    · exact hw.earlyExt i' t' e x h he hx

/-- **A new extended entry says of each frame what the entry said of all.** -/
theorem installExt_keeps {x : ExtRef} (hnew : UnusedExt s x)
    (hold : ∀ k < entryFrames, decodeEntry s.exts k (s.tables t j) = if u then .unusable else .free)
    (f : Nat) : decode (s.installExt t j x u) f = decode s f := by
  refine decode_congr_at rfl fun t' ht' => ?_
  rw [installExt_tables]
  split
  · rename_i hin
    obtain ⟨rfl, he⟩ := hin
    rw [he, hold _ (Nat.mod_lt f (by decide)), decodeEntry, installExt_exts, if_pos rfl]
  · cases he : s.tables t' (f % tableFrames / entryFrames) with
    | ext x' =>
      have hne : x' ≠ x := fun heq => hnew _ t' _ ht' (entry_lt f) (heq ▸ he)
      rw [decodeEntry, decodeEntry, installExt_exts, if_neg hne]
    | _ => rfl

end FoliOS.Strata.Pmm
