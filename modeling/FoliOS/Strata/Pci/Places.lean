import FoliOS.Strata.Pci.Visits

/-!
# Where the nodes go

The callbacks put each node under the node of the current bus or device, and these change with
every callback, also with those made behind a bridge. `places` follows them through a list of
visits. After the return from a bridge the current bus is still the last one behind it: devices
that follow on the bus of the bridge go under the wrong bus, and functions that follow in the
device of the bridge under the wrong device if there was a device behind the bridge.

* `places_eq_own`       — with nothing after a bridge, every visit gets its own place.
* `exists_missing`      — otherwise some present function has no node in its place.
-/

namespace FoliOS.Strata.Pci

variable {fs ds : List Nat} {p : Visit → Bool} {x : UInt8} {e : Nat}

/-! ## Places -/

/-- The place of a node below the PCI node: bus, device and function number. -/
abbrev Place := List Nat

/-- The places of the current bus and device nodes. -/
structure Cursor where
  bus    : Option Place
  device : Option Place

/-- Where the node for a visit goes. -/
def Cursor.place (c : Cursor) : Visit → Option Place
  | .bus b => some [b.toNat]
  | .device _ d => c.bus.map (· ++ [d])
  | .function _ _ f => c.device.map (· ++ [f])

/-- What the callback leaves as current. -/
def Cursor.next (c : Cursor) (v : Visit) : Cursor :=
  match v with
  | .bus _ => { c with bus := c.place v }
  | .device _ _ => { c with device := c.place v }
  | .function _ _ _ => c

/-- The cursor after a list of visits. -/
def Cursor.after (c : Cursor) (vs : List Visit) : Cursor := vs.foldl Cursor.next c

/-- The places of the nodes of a list of visits. -/
def places (c : Cursor) : List Visit → List (Option Place)
  | [] => []
  | v :: vs => c.place v :: places (c.next v) vs

/-- The place a visit should have. -/
def Visit.own : Visit → Place
  | .bus b => [b.toNat]
  | .device b d => [b.toNat, d]
  | .function b d f => [b.toNat, d, f]

@[simp] theorem Cursor.after_cons (c : Cursor) (v : Visit) (vs : List Visit) :
    c.after (v :: vs) = (c.next v).after vs := rfl

theorem Cursor.after_append (c : Cursor) (vs ws : List Visit) :
    c.after (vs ++ ws) = (c.after vs).after ws := List.foldl_append

theorem places_append (c : Cursor) (vs ws : List Visit) :
    places c (vs ++ ws) = places c vs ++ places (c.after vs) ws := by
  induction vs generalizing c with
  | nil => rfl
  | cons v vs ih => simp only [List.cons_append, places, ih, Cursor.after_cons]

/-! ## Nothing after a bridge -/

/-- No device follows a bridge on its bus, and no function follows it in its device if there is a
device on the bus behind it. -/
def Config.BridgesLast (cfg : Config) : Prop :=
  ∀ b d f s, cfg.Reach 0 b → cfg.Bridge b d f s →
    (∀ d' ∈ cfg.devices b, d' ≤ d) ∧
    ∀ f' ∈ cfg.functions b d, f < f' → cfg.devices s = []

theorem Config.devices_sorted (cfg : Config) (b : UInt8) : (cfg.devices b).Pairwise (· < ·) :=
  List.pairwise_lt_range.filter _

theorem Config.functions_sorted (cfg : Config) (b : UInt8) (d : Nat) :
    (cfg.functions b d).Pairwise (· < ·) :=
  List.pairwise_lt_range.filter _

/-- The visit of a bus. -/
def Visit.isBus : Visit → Bool
  | .bus _ => true
  | _ => false

/-- The visit of a device. -/
def Visit.isDevice : Visit → Bool
  | .device _ _ => true
  | _ => false

section Own

variable {cfg : Config} {fuel : Nat} {b s : UInt8} {d f : Nat} {vs ws : List Visit} {c : Cursor}
  {next : UInt8 → Option (List Visit)}

/-- Without the visit of a bus the current one stays. -/
theorem after_bus (h : ∀ v ∈ vs, v.isBus = false) : (c.after vs).bus = c.bus := by
  induction vs generalizing c with
  | nil => rfl
  | cons v vs ih =>
    rw [Cursor.after_cons, ih fun w hw => h w (List.mem_cons_of_mem v hw)]
    cases v with
    | bus b => exact absurd (h _ List.mem_cons_self) (by simp [Visit.isBus])
    | _ => rfl

theorem after_device (h : ∀ v ∈ vs, v.isDevice = false) : (c.after vs).device = c.device := by
  induction vs generalizing c with
  | nil => rfl
  | cons v vs ih =>
    rw [Cursor.after_cons, ih fun w hw => h w (List.mem_cons_of_mem v hw)]
    cases v with
    | device b d => exact absurd (h _ List.mem_cons_self) (by simp [Visit.isDevice])
    | _ => rfl

/-- Without a bridge no bus is visited. -/
theorem no_bus_of_no_bridge (hfs : ∀ f ∈ fs, cfg.secondary b d f = none)
    (h : concatM (functionVisits cfg next b d) fs = some vs) : ∀ v ∈ vs, v.isBus = false := by
  intro v hv
  obtain ⟨f, hf, x, hx, hv⟩ := (mem_concatM h).mp hv
  rw [functionVisits, hfs f hf] at hx
  cases hx
  rw [List.mem_singleton.mp hv]
  rfl

theorem visits_of_devices_nil (hs : cfg.devices s = []) (h : visits cfg fuel s = some vs) :
    vs = [] := by
  cases fuel with
  | zero => cases h
  | succ fuel =>
    rw [visits, hs] at h
    exact (Option.some.inj h).symm

section

variable (hl : cfg.BridgesLast) (hb : cfg.Reach 0 b)
include hl hb

/-- The functions of a device, from a cursor on that device. -/
theorem places_functions (hd : d ∈ cfg.devices b)
    (hnext : ∀ {s c ws}, cfg.Behind b s → visits cfg fuel s = some ws → c.bus = some [s.toNat] →
      places c ws = ws.map fun v => some v.own) :
    ∀ {fs : List Nat} {c : Cursor} {vs : List Visit}, fs.Pairwise (· < ·) →
      (∀ f ∈ fs, f ∈ cfg.functions b d) →
      concatM (functionVisits cfg (visits cfg fuel) b d) fs = some vs →
      c.device = some [b.toNat, d] → places c vs = vs.map fun v => some v.own := by
  intro fs
  induction fs with
  | nil =>
    intro c vs _ _ h _
    cases h
    rfl
  | cons f fs ih =>
    intro c vs hsort hfs h hc
    obtain ⟨hlt, hsort⟩ := List.pairwise_cons.mp hsort
    have hf : f ∈ cfg.functions b d := hfs f List.mem_cons_self
    have hfs' : ∀ g ∈ fs, g ∈ cfg.functions b d := fun g hg => hfs g (List.mem_cons_of_mem f hg)
    obtain ⟨x, y, hx, hy, rfl⟩ := concatM_cons_eq_some.mp h
    have hown : c.place (.function b d f) = some (Visit.own (.function b d f)) := by
      simp [Cursor.place, hc, Visit.own]
    unfold functionVisits at hx
    split at hx
    · cases hx
      simp only [List.cons_append, List.nil_append, places, hown, List.map_cons]
      rw [ih hsort hfs' hy (show (c.next (.function b d f)).device = _ from hc)]
    next s hs =>
      obtain ⟨ws, hws, rfl⟩ := Option.map_eq_some_iff.mp hx
      have hbr : cfg.Bridge b d f s := ⟨hd, hf, hs⟩
      have hsub : places ((c.next (.function b d f)).next (.bus s)) ws =
          ws.map fun v => some v.own := hnext ⟨d, f, hbr⟩ hws rfl
      simp only [List.cons_append, places, places_append, hown, hsub, List.map_cons,
        List.map_append]
      refine congrArg _ (congrArg _ (congrArg _ ?_))
      -- a further function leaves no device behind the bridge
      cases fs with
      | nil =>
        cases hy
        rfl
      | cons g gs =>
        have hnil := (hl b d f s hb hbr).2 g (hfs' g List.mem_cons_self) (hlt g List.mem_cons_self)
        obtain rfl := visits_of_devices_nil hnil hws
        exact ih hsort hfs' hy hc

/-- The devices of a bus, from a cursor on that bus. -/
theorem places_devices
    (hnext : ∀ {s c ws}, cfg.Behind b s → visits cfg fuel s = some ws → c.bus = some [s.toNat] →
      places c ws = ws.map fun v => some v.own) :
    ∀ {ds : List Nat} {c : Cursor} {vs : List Visit}, ds.Pairwise (· < ·) →
      (∀ d ∈ ds, d ∈ cfg.devices b) →
      concatM (deviceVisits cfg (visits cfg fuel) b) ds = some vs →
      c.bus = some [b.toNat] → places c vs = vs.map fun v => some v.own := by
  intro ds
  induction ds with
  | nil =>
    intro c vs _ _ h _
    cases h
    rfl
  | cons d ds ih =>
    intro c vs hsort hds h hc
    obtain ⟨hlt, hsort⟩ := List.pairwise_cons.mp hsort
    have hd : d ∈ cfg.devices b := hds d List.mem_cons_self
    obtain ⟨x, y, hx, hy, rfl⟩ := concatM_cons_eq_some.mp h
    obtain ⟨z, hz, rfl⟩ := Option.map_eq_some_iff.mp hx
    have hown : c.place (.device b d) = some (Visit.own (.device b d)) := by
      simp [Cursor.place, hc, Visit.own]
    have hfun : places (c.next (.device b d)) z = z.map fun v => some v.own :=
      places_functions hl hb hd hnext (cfg.functions_sorted b d) (fun _ h => h) hz hown
    simp only [List.cons_append, places, places_append, hown, hfun, List.map_cons, List.map_append]
    refine congrArg _ (congrArg _ ?_)
    -- a further device means that this one has no bridge
    cases ds with
    | nil =>
      cases hy
      rfl
    | cons e es =>
      have hno : ∀ f ∈ cfg.functions b d, cfg.secondary b d f = none := by
        intro f hf
        rw [Option.eq_none_iff_forall_ne_some]
        intro s hs
        have hle := (hl b d f s hb ⟨hd, hf, hs⟩).1 e (hds e (by simp))
        exact absurd (hlt e List.mem_cons_self) (by omega)
      refine ih hsort (fun g hg => hds g (List.mem_cons_of_mem d hg)) hy ?_
      rw [after_bus (no_bus_of_no_bridge hno hz)]
      exact hc

/-- **Every visit gets its own place if nothing follows a bridge.** -/
theorem places_eq_own (h : visits cfg fuel b = some vs) (hc : c.bus = some [b.toNat]) :
    places c vs = vs.map fun v => some v.own := by
  induction fuel generalizing b vs c with
  | zero => cases h
  | succ fuel ih =>
    exact places_devices hl hb (fun hbehind hws hc => ih (hb.tail hbehind) hws hc)
      (cfg.devices_sorted b) (fun _ h => h) h hc

end

end Own

/-! ## Something after a bridge -/

section Last

variable {c : Cursor} {vs : List Visit} {q : Place}

/-- The last visit with a property, if there is one. -/
theorem exists_last (p : Visit → Bool) (vs : List Visit) :
    (∀ v ∈ vs, p v = false) ∨
      ∃ v1 v v2, vs = v1 ++ v :: v2 ∧ p v = true ∧ ∀ v ∈ v2, p v = false := by
  induction vs using List.reverseRecOn with
  | nil => exact .inl (by simp)
  | append_singleton vs v ih =>
    by_cases hv : p v = true
    · exact .inr ⟨vs, v, [], rfl, hv, by simp⟩
    · rcases ih with hno | ⟨v1, w, v2, rfl, hw, hno⟩
      · exact .inl (by simpa [or_imp, forall_and, hv] using hno)
      · exact .inr ⟨v1, w, v2 ++ [v], by simp, hw, by simpa [or_imp, forall_and, hv] using hno⟩

/-- The current bus comes from the last visit of a bus. -/
theorem bus_of_after (h : (Cursor.after ⟨none, none⟩ vs).bus = some q) :
    ∃ v1 b v2, vs = v1 ++ .bus b :: v2 ∧ (∀ v ∈ v2, v.isBus = false) ∧ q = [b.toNat] := by
  rcases exists_last Visit.isBus vs with hno | ⟨v1, v, v2, rfl, hv, hno⟩
  · cases (after_bus hno).symm.trans h
  · rw [Cursor.after_append, Cursor.after_cons, after_bus hno] at h
    cases v with
    | bus b => exact ⟨v1, b, v2, rfl, hno, (Option.some.inj h).symm⟩
    | _ => cases hv

/-- The current device comes from the last visit of a device. -/
theorem device_of_after (h : (Cursor.after ⟨none, none⟩ vs).device = some q) :
    ∃ v1 x d v2, vs = v1 ++ .device x d :: v2 ∧ (∀ v ∈ v2, v.isDevice = false) ∧
      ∃ r, (Cursor.after ⟨none, none⟩ v1).bus = some r ∧ r ++ [d] = q := by
  rcases exists_last Visit.isDevice vs with hno | ⟨v1, v, v2, rfl, hv, hno⟩
  · cases (after_device hno).symm.trans h
  · rw [Cursor.after_append, Cursor.after_cons, after_device hno] at h
    cases v with
    | device x d => exact ⟨v1, x, d, v2, rfl, hno, Option.map_eq_some_iff.mp h⟩
    | _ => cases hv

theorem exists_of_mem_places (h : some q ∈ places c vs) :
    ∃ v1 v v2, vs = v1 ++ v :: v2 ∧ (c.after v1).place v = some q := by
  induction vs generalizing c with
  | nil => cases h
  | cons v vs ih =>
    rcases List.mem_cons.mp h with heq | h
    · exact ⟨[], v, vs, rfl, heq.symm⟩
    · obtain ⟨v1, w, v2, rfl, hw⟩ := ih h
      exact ⟨v :: v1, w, v2, rfl, hw⟩

/-- Behind a node in the place of a function there are a bus, a device and a function visit with
its numbers, no bus between the first two and no device between the last two. -/
theorem decompose {b : UInt8} {d f : Nat} (h : some [b.toNat, d, f] ∈ places ⟨none, none⟩ vs) :
    ∃ w1 w2 x u y z v, vs = w1 ++ .bus b :: (w2 ++ .device x d :: (u ++ .function y z f :: v)) ∧
      (∀ v ∈ w2, v.isBus = false) ∧ ∀ v ∈ u, v.isDevice = false := by
  obtain ⟨v1, v, v2, rfl, hv⟩ := exists_of_mem_places h
  cases v with
  | bus a => simp [Cursor.place] at hv
  | device x e =>
    obtain ⟨r, hr, hq⟩ := Option.map_eq_some_iff.mp hv
    obtain ⟨-, a, -, -, -, rfl⟩ := bus_of_after hr
    simp at hq
  | function y z g =>
    obtain ⟨r, hr, hq⟩ := Option.map_eq_some_iff.mp hv
    obtain ⟨u1, x, e, u, rfl, hno, r', hr', rfl⟩ := device_of_after hr
    obtain ⟨w1, a, w2, rfl, hno', rfl⟩ := bus_of_after hr'
    simp only [List.cons_append, List.nil_append, List.cons.injEq, and_true] at hq
    obtain ⟨ha, rfl, rfl⟩ := hq
    obtain rfl : a = b := UInt8.toNat_inj.mp ha
    exact ⟨w1, w2, x, u, y, z, v2, by simp, hno', hno⟩

end Last

section Missing

variable {cfg : Config} {fuel : Nat} {b s : UInt8} {d f d0 f0 : Nat} {v : Visit}
  {vs ws : List Visit} {next : UInt8 → Option (List Visit)}

theorem mem_takeWhile_append (h : v ∈ (vs ++ ws).takeWhile p) :
    v ∈ vs.takeWhile p ∨ v ∈ ws.takeWhile p := by
  induction vs with
  | nil => exact .inr h
  | cons w vs ih =>
    simp only [List.cons_append, List.takeWhile_cons] at h ⊢
    split at h
    next hw =>
      rw [if_pos hw]
      rcases List.mem_cons.mp h with rfl | h
      · exact .inl List.mem_cons_self
      · exact (ih h).imp (List.mem_cons_of_mem w) id
    · cases h

theorem mem_takeWhile_of_append (hvs : ∀ w ∈ vs, p w = false) (hv : p v = false) (ws : List Visit) :
    v ∈ (vs ++ v :: ws).takeWhile fun v => !p v := by
  rw [List.takeWhile_append_of_pos fun w hw => by simp [hvs w hw],
    List.takeWhile_cons_of_pos (by simp [hv])]
  simp

/-- What is visited before a certain visit is in one of the parts, before such a visit in it. -/
theorem mem_takeWhile_concatM {g : Nat → Option (List Visit)} {l : List Nat}
    (h : concatM g l = some vs) (hv : v ∈ vs.takeWhile p) :
    ∃ a ∈ l, ∃ x, g a = some x ∧ v ∈ x.takeWhile p := by
  induction l generalizing vs with
  | nil =>
    cases h
    cases hv
  | cons a l ih =>
    obtain ⟨x, y, hx, hy, rfl⟩ := concatM_cons_eq_some.mp h
    rcases mem_takeWhile_append hv with hv | hv
    · exact ⟨a, List.mem_cons_self, x, hx, hv⟩
    · obtain ⟨b, hb, hbv⟩ := ih hy hv
      exact ⟨b, List.mem_cons_of_mem a hb, hbv⟩

/-- Before the first bus the scan of a device's functions visits functions only. -/
theorem direct_functions (h : concatM (functionVisits cfg next b d) fs = some vs)
    (hv : v ∈ vs.takeWhile fun v => !v.isBus) : ∃ f ∈ fs, v = .function b d f := by
  obtain ⟨f, hf, x, hx, hv⟩ := mem_takeWhile_concatM h hv
  refine ⟨f, hf, ?_⟩
  unfold functionVisits at hx
  split at hx
  · cases hx
    simpa [List.takeWhile, Visit.isBus] using hv
  · obtain ⟨z, -, rfl⟩ := Option.map_eq_some_iff.mp hx
    simpa [List.takeWhile, Visit.isBus] using hv

/-- Before the first bus the scan of a bus visits its own devices only. -/
theorem direct_devices (h : concatM (deviceVisits cfg next b) ds = some vs)
    (hv : .device x e ∈ vs.takeWhile fun v => !v.isBus) : x = b ∧ e ∈ ds := by
  obtain ⟨d, hd, y, hy, hv⟩ := mem_takeWhile_concatM h hv
  obtain ⟨w, hw, rfl⟩ := Option.map_eq_some_iff.mp hy
  rcases List.mem_cons.mp hv with heq | hv
  · cases heq
    exact ⟨rfl, hd⟩
  · obtain ⟨f, -, heq⟩ := direct_functions hw hv
    cases heq

/-- The scan of a bus begins with a device, if there is one. -/
theorem visits_cases (h : visits cfg fuel s = some vs) :
    vs = [] ∧ cfg.devices s = [] ∨ ∃ d z, vs = .device s d :: z := by
  cases fuel with
  | zero => cases h
  | succ fuel =>
    rw [visits] at h
    cases hds : cfg.devices s with
    | nil =>
      rw [hds] at h
      exact .inl ⟨(Option.some.inj h).symm, rfl⟩
    | cons d ds =>
      rw [hds] at h
      obtain ⟨x, y, hx, -, rfl⟩ := concatM_cons_eq_some.mp h
      obtain ⟨z, -, rfl⟩ := Option.map_eq_some_iff.mp hx
      exact .inr ⟨d, z ++ y, rfl⟩

theorem visits_starts (h : visits cfg fuel s = some vs) :
    vs.takeWhile (fun v => !v.isDevice) = [] := by
  rcases visits_cases h with ⟨rfl, -⟩ | ⟨d, z, rfl⟩ <;> rfl

/-- Before the first device the scan of functions visits these functions only. -/
theorem functions_before_device {g : Nat}
    (h : concatM (functionVisits cfg (visits cfg fuel) b d) fs = some vs)
    (hv : .function x e g ∈ vs.takeWhile fun v => !v.isDevice) : g ∈ fs := by
  obtain ⟨f, hf, y, hy, hv⟩ := mem_takeWhile_concatM h hv
  have heq : Visit.function x e g = .function b d f := by
    unfold functionVisits at hy
    split at hy
    · cases hy
      simpa [List.takeWhile, Visit.isDevice] using hv
    · obtain ⟨w, hw, rfl⟩ := Option.map_eq_some_iff.mp hy
      rw [List.takeWhile_cons_of_pos (by simp [Visit.isDevice]),
        List.takeWhile_cons_of_pos (by simp [Visit.isDevice]), visits_starts hw] at hv
      simpa using hv
  cases heq
  exact hf

/-- Where the scan of a bus meets a bridge. -/
theorem visits_at_bridge (hbr : cfg.Bridge b d0 f0 s) (h : visits cfg (fuel + 1) b = some vs) :
    ∃ ds fs x y ws r, (∀ d ∈ ds, d < d0) ∧ (∀ f ∈ fs, f < f0) ∧
      concatM (deviceVisits cfg (visits cfg fuel) b) ds = some x ∧
      concatM (functionVisits cfg (visits cfg fuel) b d0) fs = some y ∧
      visits cfg fuel s = some ws ∧
      vs = x ++ .device b d0 :: (y ++ .function b d0 f0 :: .bus s :: (ws ++ r)) := by
  obtain ⟨ds, ds', hds⟩ := List.append_of_mem hbr.device_mem
  obtain ⟨fs, fs', hfs⟩ := List.append_of_mem hbr.function_mem
  have hdlt := (List.pairwise_append.mp (hds ▸ cfg.devices_sorted b)).2.2
  have hflt := (List.pairwise_append.mp (hfs ▸ cfg.functions_sorted b d0)).2.2
  rw [visits, hds] at h
  obtain ⟨x, x', hx, hx', rfl⟩ := concatM_append h
  obtain ⟨z', r, hz', -, rfl⟩ := concatM_cons_eq_some.mp hx'
  obtain ⟨z, hz, rfl⟩ := Option.map_eq_some_iff.mp hz'
  rw [hfs] at hz
  obtain ⟨y, y', hy, hy', rfl⟩ := concatM_append hz
  obtain ⟨t, r', ht, -, rfl⟩ := concatM_cons_eq_some.mp hy'
  rw [functionVisits, hbr.secondary_eq] at ht
  obtain ⟨ws, hws, rfl⟩ := Option.map_eq_some_iff.mp ht
  exact ⟨ds, fs, x, y, ws, r' ++ r, fun d hd => hdlt d hd d0 List.mem_cons_self,
    fun f hf => hflt f hf f0 List.mem_cons_self, hx, hy, hws, by simp⟩

/-- The scan of a bus contains that of every bus behind it. -/
theorem visits_infix (hb : cfg.Reach 0 b) (h : visits cfg fuel 0 = some vs) :
    ∃ n l ws r, visits cfg n b = some ws ∧ .bus 0 :: vs = l ++ .bus b :: (ws ++ r) := by
  induction hb with
  | refl => exact ⟨fuel, [], vs, [], h, by simp⟩
  | @tail a b _ hstep ih =>
    obtain ⟨n, l, ws, r, hws, heq⟩ := ih
    obtain ⟨d, f, hbr⟩ := hstep
    cases n with
    | zero => cases hws
    | succ n =>
      obtain ⟨-, -, x, y, ws', r', -, -, -, -, hws', rfl⟩ := visits_at_bridge hbr hws
      exact ⟨n, l ++ .bus a :: (x ++ .device a d :: (y ++ [.function a d f])), ws', r' ++ r, hws',
        by rw [heq]; simp⟩

theorem split_unique {α : Type} {l l' r r' : List α} {a : α} (hnd : (l ++ a :: r).Nodup)
    (heq : l ++ a :: r = l' ++ a :: r') : r = r' := by
  have hl : a ∉ l := fun h => (List.nodup_append.mp hnd).2.2 a h a List.mem_cons_self rfl
  have hr : a ∉ r := (List.nodup_cons.mp (List.nodup_append.mp hnd).2.1).1
  exact ((List.append_cons_inj_of_notMem hl hr).mp heq).2.2

/-- Of the devices visited before the first bus, those up to the one of the bridge are its own. -/
theorem direct_near_bridge {x y r : List Visit} {a : UInt8}
    (hx : concatM (deviceVisits cfg next b) ds = some x)
    (hy : concatM (functionVisits cfg next b d0) fs = some y)
    (h : .device a d ∈ (x ++ .device b d0 :: (y ++ .function b d0 f0 :: .bus s :: r)).takeWhile
      fun v => !v.isBus) :
    a = b ∧ (d ∈ ds ∨ d = d0) := by
  rcases mem_takeWhile_append h with h | h
  · obtain ⟨ha, hd⟩ := direct_devices hx h
    exact ⟨ha, .inl hd⟩
  · rcases List.mem_cons.mp h with heq | h
    · cases heq
      exact ⟨rfl, .inr rfl⟩
    · rcases mem_takeWhile_append h with h | h
      · obtain ⟨f, -, heq⟩ := direct_functions hy h
        cases heq
      · simp [List.takeWhile, Visit.isBus] at h

/-- The visits after that of the bus of a bridge, seen from the bridge and from a node in the place
of a function of that bus: no such place is in a device that follows the bridge. -/
theorem place_near_bridge (ht : cfg.IsTree) (hb : cfg.Reach 0 b) (hbr : cfg.Bridge b d0 f0 s)
    (h : visits cfg fuel 0 = some vs)
    (hmem : some [b.toNat, d, f] ∈ places ⟨none, none⟩ (.bus 0 :: vs)) :
    ∃ n fs x y ws r w u e g v, d ≤ d0 ∧ (∀ f ∈ fs, f < f0) ∧
      concatM (functionVisits cfg (visits cfg n) b d0) fs = some y ∧
      visits cfg n s = some ws ∧
      x ++ .device b d0 :: (y ++ .function b d0 f0 :: .bus s :: (ws ++ r)) =
        w ++ .device b d :: (u ++ .function e g f :: v) ∧
      (∀ v ∈ u, v.isDevice = false) ∧
      (x ++ .device b d0 :: (y ++ .function b d0 f0 :: .bus s :: (ws ++ r))).Nodup := by
  obtain ⟨n, l, ws, r, hws, heq⟩ := visits_infix hb h
  obtain ⟨w1, w, a, u, e, g, v, heq', hw, hu⟩ := decompose hmem
  have hnd := nodup_visits ht .refl h
  rw [heq] at hnd heq'
  have htail := split_unique hnd heq'
  cases n with
  | zero => cases hws
  | succ n =>
    obtain ⟨ds, fs, x, y, ws', r', hds, hfs, hx, hy, hws', rfl⟩ := visits_at_bridge hbr hws
    have hsplit : x ++ Visit.device b d0 :: (y ++ .function b d0 f0 :: .bus s :: (ws' ++ r')) ++ r =
        x ++ .device b d0 :: (y ++ .function b d0 f0 :: .bus s :: (ws' ++ (r' ++ r))) := by
      simp
    rw [hsplit] at htail hnd
    -- no bus is visited between that of the bus and that of the device, so the device is its own
    have hpre := mem_takeWhile_of_append (v := .device a d) hw rfl (u ++ .function e g f :: v)
    rw [← htail] at hpre
    obtain ⟨rfl, hd⟩ := direct_near_bridge hx hy hpre
    exact ⟨n, fs, x, y, ws', r' ++ r, w, u, e, g, v, hd.elim (fun h => (hds d h).le) le_of_eq,
      hfs, hy, hws', htail, hu, (List.nodup_cons.mp (List.nodup_append.mp hnd).2.1).2⟩

/-- No node is in the place of a function that follows a bridge in its device, if there is a
device behind the bridge. -/
theorem function_le_of_mem_places (ht : cfg.IsTree) (hb : cfg.Reach 0 b)
    (hbr : cfg.Bridge b d0 f0 s) (hs : cfg.devices s ≠ []) (h : visits cfg fuel 0 = some vs)
    (hmem : some [b.toNat, d0, f] ∈ places ⟨none, none⟩ (.bus 0 :: vs)) : f ≤ f0 := by
  obtain ⟨n, fs, x, y, ws, r, w, u, e, g, v, -, hfs, hy, hws, heq, hu, hnd⟩ :=
    place_near_bridge ht hb hbr h hmem
  -- the device of the bridge is visited once, so the function follows it
  have htail := split_unique hnd heq
  have hpre := mem_takeWhile_of_append (v := .function e g f) hu rfl v
  rw [← htail] at hpre
  obtain ⟨-, hnil⟩ | ⟨d, z, rfl⟩ := visits_cases hws
  · exact absurd hnil hs
  · rcases mem_takeWhile_append hpre with hpre | hpre
    · exact (hfs f (functions_before_device hy hpre)).le
    · have heq : Visit.function e g f = .function b d0 f0 := by
        simpa [List.takeWhile, Visit.isDevice] using hpre
      cases heq
      exact le_rfl

/-- **A present function without a node in its place**, where something follows a bridge. -/
theorem exists_missing (ht : cfg.IsTree) (h : visits cfg fuel 0 = some vs)
    (hl : ¬ cfg.BridgesLast) : ∃ b d f, cfg.Reach 0 b ∧ d ∈ cfg.devices b ∧
      f ∈ cfg.functions b d ∧ some [b.toNat, d, f] ∉ places ⟨none, none⟩ (.bus 0 :: vs) := by
  by_contra hall
  push Not at hall
  refine hl fun b d f s hb hbr => ⟨fun d' hd' => ?_, fun f' hf' hlt => ?_⟩
  · have hzero : 0 ∈ cfg.functions b d' := by
      refine List.mem_filter.mpr ⟨List.mem_range.mpr ?_, by simp⟩
      split <;> omega
    obtain ⟨-, -, -, -, -, -, -, -, -, -, -, hle, -⟩ :=
      place_near_bridge ht hb hbr h (hall b d' 0 hb hd' hzero)
    exact hle
  · by_contra hs
    have hle := function_le_of_mem_places ht hb hbr hs h (hall b d f' hb hbr.device_mem hf')
    omega

end Missing

end FoliOS.Strata.Pci
