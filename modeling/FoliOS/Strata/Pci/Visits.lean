import Mathlib.Data.Fintype.Order
import FoliOS.Strata.Pci.Scan

/-!
# The order of the callbacks

`visits cfg fuel b` lists the callbacks a scan of bus `b` makes, in order, when all of them let it
continue; it has no value when the fuel does not suffice for the nesting of the bridges.
`scanPciBus_eq` says that such a scan is the fold of the callbacks over that list.

* `exists_visits_iff`  — the scan of a bus ends exactly when no endless descent starts there.
* `mem_visits_iff`     — what is visited: the devices and functions of the buses behind.
* `nodup_visits`       — nothing is visited twice in a tree of buses.
-/

namespace FoliOS.Strata.Pci

/-! ## What is on a bus -/

/-- One callback. -/
inductive Visit where
  | bus (bus : UInt8)
  | device (bus : UInt8) (device : Nat)
  | function (bus : UInt8) (device function : Nat)
  deriving DecidableEq, Repr

/-- The vendor id of a function. -/
def Config.vendorId (cfg : Config) (bus : UInt8) (device function : Nat) : Nat :=
  (cfg.byte bus device function vendorIdOffset).toNat +
    256 * (cfg.byte bus device function (vendorIdOffset + 1)).toNat

/-- The present devices of a bus. -/
def Config.devices (cfg : Config) (bus : UInt8) : List Nat :=
  (List.range 32).filter fun device => cfg.vendorId bus device 0 ≠ 0xFFFF

/-- The present functions of a device: function 0, and with the multifunction bit the others
that answer. -/
def Config.functions (cfg : Config) (bus : UInt8) (device : Nat) : List Nat :=
  (List.range (if cfg.byte bus device 0 headerTypeOffset &&& 0x80 ≠ 0 then 8 else 1)).filter
    fun function => ¬ 0 < function ∨ cfg.vendorId bus device function ≠ 0xFFFF

/-- The bus behind a function, if it is a bridge with one. -/
def Config.secondary (cfg : Config) (bus : UInt8) (device function : Nat) : Option UInt8 :=
  if cfg.byte bus device function baseClassOffset = 0x06 ∧
      cfg.byte bus device function subClassOffset = 0x04 ∧
      cfg.byte bus device function secondaryBusOffset ≠ 0 then
    some (cfg.byte bus device function secondaryBusOffset)
  else none

/-- A present bridge. -/
structure Config.Bridge (cfg : Config) (bus : UInt8) (device function : Nat) (behind : UInt8) :
    Prop where
  device_mem   : device ∈ cfg.devices bus
  function_mem : function ∈ cfg.functions bus device
  secondary_eq : cfg.secondary bus device function = some behind

/-- A bridge on `bus` leads to `behind`. -/
def Config.Behind (cfg : Config) (bus behind : UInt8) : Prop :=
  ∃ device function, cfg.Bridge bus device function behind

/-- Bridges lead from one bus to the other. -/
def Config.Reach (cfg : Config) : UInt8 → UInt8 → Prop := Relation.ReflTransGen cfg.Behind

theorem Config.device_lt {cfg : Config} {bus : UInt8} {device : Nat}
    (h : device ∈ cfg.devices bus) :
    device < 32 :=
  List.mem_range.mp (List.mem_of_mem_filter h)

theorem Config.function_lt {cfg : Config} {bus : UInt8} {device function : Nat}
    (h : function ∈ cfg.functions bus device) : function < 8 := by
  have hlt := List.mem_range.mp (List.mem_of_mem_filter h)
  split at hlt <;> omega

/-! ## The visits -/

/-- Two partial lists one after the other. -/
def appendM {β : Type} (x y : Option (List β)) : Option (List β) :=
  match x, y with
  | some x, some y => some (x ++ y)
  | _, _ => none

/-- The concatenation of partial lists. -/
def concatM {α β : Type} (f : α → Option (List β)) : List α → Option (List β)
  | [] => some []
  | a :: l => appendM (f a) (concatM f l)

/-- The visits of a function and of the bus behind it. -/
def functionVisits (cfg : Config) (busVisits : UInt8 → Option (List Visit)) (bus : UInt8)
    (device function : Nat) : Option (List Visit) :=
  match cfg.secondary bus device function with
  | none => some [.function bus device function]
  | some behind => (busVisits behind).map fun vs =>
      .function bus device function :: .bus behind :: vs

/-- The visits of a device. -/
def deviceVisits (cfg : Config) (busVisits : UInt8 → Option (List Visit)) (bus : UInt8)
    (device : Nat) : Option (List Visit) :=
  (concatM (functionVisits cfg busVisits bus device) (cfg.functions bus device)).map
    (.device bus device :: ·)

/-- The visits of the devices of a bus, after that of the bus itself. -/
def visits (cfg : Config) : Nat → UInt8 → Option (List Visit)
  | 0, _ => none
  | fuel + 1, bus => concatM (deviceVisits cfg (visits cfg fuel) bus) (cfg.devices bus)

section ConcatM

variable {α β : Type} {f g : α → Option (List β)} {l l1 l2 : List α} {a : α} {b : β}
  {vs : List β}

theorem concatM_cons_eq_some : concatM f (a :: l) = some vs ↔
    ∃ x y, f a = some x ∧ concatM f l = some y ∧ vs = x ++ y := by
  simp only [concatM, appendM]
  split
  next x y hx hy => simp [hx, hy, eq_comm]
  next hno =>
    simp only [reduceCtorEq, false_iff]
    rintro ⟨x, y, hx, hy, -⟩
    exact hno x y hx hy

theorem concatM_append (h : concatM f (l1 ++ l2) = some vs) :
    ∃ x y, concatM f l1 = some x ∧ concatM f l2 = some y ∧ vs = x ++ y := by
  induction l1 generalizing vs with
  | nil => exact ⟨[], vs, rfl, h, rfl⟩
  | cons a l1 ih =>
    obtain ⟨x, y, hx, hy, rfl⟩ := concatM_cons_eq_some.mp h
    obtain ⟨y1, y2, hy1, hy2, rfl⟩ := ih hy
    exact ⟨x ++ y1, y2, concatM_cons_eq_some.mpr ⟨x, y1, hx, hy1, rfl⟩, hy2,
      (List.append_assoc _ _ _).symm⟩

theorem mem_concatM (h : concatM f l = some vs) : b ∈ vs ↔ ∃ a ∈ l, ∃ x, f a = some x ∧ b ∈ x := by
  induction l generalizing vs with
  | nil =>
    cases h
    simp
  | cons a l ih =>
    obtain ⟨x, y, hx, hy, rfl⟩ := concatM_cons_eq_some.mp h
    rw [List.mem_append, ih hy]
    constructor
    · rintro (hb | ⟨a', ha', hb⟩)
      · exact ⟨a, List.mem_cons_self, x, hx, hb⟩
      · exact ⟨a', List.mem_cons_of_mem a ha', hb⟩
    · rintro ⟨a', ha', x', hx', hb⟩
      rcases List.mem_cons.mp ha' with rfl | ha'
      · rw [hx] at hx'
        cases hx'
        exact .inl hb
      · exact .inr ⟨a', ha', x', hx', hb⟩

theorem exists_of_concatM (h : concatM f l = some vs) (ha : a ∈ l) : ∃ x, f a = some x := by
  obtain ⟨l1, l2, rfl⟩ := List.append_of_mem ha
  obtain ⟨-, y, -, hy, -⟩ := concatM_append h
  obtain ⟨x, -, hx, -⟩ := concatM_cons_eq_some.mp hy
  exact ⟨x, hx⟩

theorem concatM_isSome (h : ∀ a ∈ l, ∃ x, f a = some x) : ∃ vs, concatM f l = some vs := by
  induction l with
  | nil => exact ⟨[], rfl⟩
  | cons a l ih =>
    obtain ⟨x, hx⟩ := h a List.mem_cons_self
    obtain ⟨y, hy⟩ := ih fun b hb => h b (List.mem_cons_of_mem a hb)
    exact ⟨x ++ y, concatM_cons_eq_some.mpr ⟨x, y, hx, hy, rfl⟩⟩

theorem concatM_mono (hfg : ∀ a ∈ l, ∀ x, f a = some x → g a = some x) (h : concatM f l = some vs) :
    concatM g l = some vs := by
  induction l generalizing vs with
  | nil => exact h
  | cons a l ih =>
    obtain ⟨x, y, hx, hy, rfl⟩ := concatM_cons_eq_some.mp h
    exact concatM_cons_eq_some.mpr ⟨x, y, hfg a List.mem_cons_self x hx,
      ih (fun b hb => hfg b (List.mem_cons_of_mem a hb)) hy, rfl⟩

/-- The concatenation has no duplicates if the parts have none and no two share an element. -/
theorem nodup_concatM (h : concatM f l = some vs) (hl : l.Nodup)
    (hpart : ∀ a ∈ l, ∀ x, f a = some x → x.Nodup)
    (hdisj : ∀ a ∈ l, ∀ a' ∈ l, a ≠ a' → ∀ x x', f a = some x → f a' = some x' → ∀ b ∈ x, b ∉ x') :
    vs.Nodup := by
  induction l generalizing vs with
  | nil =>
    cases h
    exact List.nodup_nil
  | cons a l ih =>
    obtain ⟨ha, hl⟩ := List.nodup_cons.mp hl
    obtain ⟨x, y, hx, hy, rfl⟩ := concatM_cons_eq_some.mp h
    refine List.nodup_append.mpr ⟨hpart a List.mem_cons_self x hx, ?_, ?_⟩
    · exact ih hy hl (fun b hb => hpart b (List.mem_cons_of_mem a hb)) fun b hb b' hb' =>
        hdisj b (List.mem_cons_of_mem a hb) b' (List.mem_cons_of_mem a hb')
    · rintro b hb c hc rfl
      obtain ⟨a', ha', x', hx', hb'⟩ := (mem_concatM hy).mp hc
      exact hdisj a List.mem_cons_self a' (List.mem_cons_of_mem a ha')
        (fun heq => ha (heq ▸ ha')) x x' hx hx' b hb hb'

end ConcatM

/-! ## Termination -/

section Fuel

variable {cfg : Config} {fuel : Nat} {b s : UInt8} {d f : Nat} {vs : List Visit}
  {next next' : UInt8 → Option (List Visit)}

theorem functionVisits_eq_some : functionVisits cfg next b d f = some vs ↔
    cfg.secondary b d f = none ∧ vs = [.function b d f] ∨ ∃ s ws, cfg.secondary b d f = some s ∧
      next s = some ws ∧ vs = .function b d f :: .bus s :: ws := by
  unfold functionVisits
  split
  next hs => simp [hs, eq_comm]
  next s hs => simp [hs, eq_comm]

theorem functionVisits_mono (hnext : ∀ s vs, next s = some vs → next' s = some vs)
    (h : functionVisits cfg next b d f = some vs) : functionVisits cfg next' b d f = some vs := by
  rw [functionVisits_eq_some] at h ⊢
  exact h.imp_right fun ⟨s, ws, hs, hws, hvs⟩ => ⟨s, ws, hs, hnext s ws hws, hvs⟩

theorem deviceVisits_mono (hnext : ∀ s vs, next s = some vs → next' s = some vs)
    (h : deviceVisits cfg next b d = some vs) : deviceVisits cfg next' b d = some vs := by
  obtain ⟨x, hx, rfl⟩ := Option.map_eq_some_iff.mp h
  rw [deviceVisits, concatM_mono (fun f _ y => functionVisits_mono hnext) hx]
  rfl

/-- More fuel changes nothing. -/
theorem visits_succ : ∀ {fuel : Nat} {b : UInt8} {vs : List Visit}, visits cfg fuel b = some vs →
    visits cfg (fuel + 1) b = some vs := by
  intro fuel
  induction fuel with
  | zero => intro b vs h; cases h
  | succ fuel ih => exact fun h => concatM_mono (fun d _ x => deviceVisits_mono fun s vs => ih) h

theorem visits_mono {fuel' : Nat} (hle : fuel ≤ fuel') (h : visits cfg fuel b = some vs) :
    visits cfg fuel' b = some vs := by
  induction hle with
  | refl => exact h
  | step _ ih => exact visits_succ ih

/-- The visits of a present function are among those of its bus. -/
theorem visits_function (h : visits cfg (fuel + 1) b = some vs) (hd : d ∈ cfg.devices b)
    (hf : f ∈ cfg.functions b d) :
    ∃ z, functionVisits cfg (visits cfg fuel) b d f = some z ∧ ∀ v ∈ z, v ∈ vs := by
  obtain ⟨x, hx⟩ := exists_of_concatM h hd
  obtain ⟨y, hy, rfl⟩ := Option.map_eq_some_iff.mp hx
  obtain ⟨z, hz⟩ := exists_of_concatM hy hf
  refine ⟨z, hz, fun v hv => (mem_concatM h).mpr ⟨d, hd, _, hx, List.mem_cons_of_mem _ ?_⟩⟩
  exact (mem_concatM hy).mpr ⟨f, hf, z, hz, hv⟩

/-- The bus behind a bridge is scanned with one unit of fuel less. -/
theorem visits_behind (h : visits cfg (fuel + 1) b = some vs) (hbr : cfg.Bridge b d f s) :
    ∃ vs', visits cfg fuel s = some vs' := by
  obtain ⟨z, hz, -⟩ := visits_function h hbr.device_mem hbr.function_mem
  rw [functionVisits, hbr.secondary_eq] at hz
  obtain ⟨vs', hvs', -⟩ := Option.map_eq_some_iff.mp hz
  exact ⟨vs', hvs'⟩

/-- **The scan of a bus ends exactly when no endless descent through bridges starts there.** -/
theorem exists_visits_iff :
    (∃ fuel vs, visits cfg fuel b = some vs) ↔ Acc (fun s b => cfg.Behind b s) b := by
  constructor
  · rintro ⟨fuel, vs, h⟩
    induction fuel generalizing b vs with
    | zero => cases h
    | succ fuel ih =>
      refine Acc.intro b ?_
      rintro s ⟨d, f, hbr⟩
      obtain ⟨vs', hvs'⟩ := visits_behind h hbr
      exact ih vs' hvs'
  · intro hacc
    induction hacc with
    | intro b _ ih =>
      -- there are finitely many buses, so one amount of fuel serves all that are behind `b`
      have hfin : Finite UInt8 := .of_injective UInt8.toFin fun _ _ => UInt8.toFin_inj.mp
      choose need hneed using ih
      classical
      obtain ⟨fuel, hfuel⟩ := Finite.exists_le fun s => if hs : cfg.Behind b s then need s hs else 0
      refine ⟨fuel + 1, concatM_isSome fun d hd => ?_⟩
      obtain ⟨x, hx⟩ : ∃ x, concatM (functionVisits cfg (visits cfg fuel) b d)
          (cfg.functions b d) = some x := by
        refine concatM_isSome fun f hf => ?_
        unfold functionVisits
        split
        · exact ⟨_, rfl⟩
        next s hs =>
          have hbehind : cfg.Behind b s := ⟨d, f, hd, hf, hs⟩
          obtain ⟨vs, hvs⟩ := hneed s hbehind
          have hle := hfuel s
          rw [dif_pos hbehind] at hle
          rw [visits_mono hle hvs]
          exact ⟨_, rfl⟩
      exact ⟨.device b d :: x, by rw [deviceVisits, hx]; rfl⟩

end Fuel

/-! ## The scan makes the visits -/

section Run

variable {σ : Type} {cfg : Config} {cb : Callbacks σ} {Good : σ → Prop} {act : Visit → σ → σ}
  {next : UInt8 → Option (List Visit)}
  {scan : Decision → UInt8 → σ → Option (Outcome σ)} {b : UInt8} {d f : Nat} {s : σ}

/-- From good states every callback lets the scan continue, does `act` and ends in one. -/
structure Proceeds (cb : Callbacks σ) (Good : σ → Prop) (act : Visit → σ → σ) : Prop where
  bus      : ∃ call, cb.bus = some call ∧
    ∀ b s, Good s → call b s = some (.proceed, act (.bus b) s)
  device   : ∃ call, cb.device = some call ∧
    ∀ b d s, Good s → call b d s = some (.proceed, act (.device b d) s)
  function : ∃ call, cb.function = some call ∧
    ∀ b d f s, Good s → call b d f s = some (.proceed, act (.function b d f) s)
  good     : ∀ v s, Good s → Good (act v s)

/-- The context after a list of visits. -/
def run (act : Visit → σ → σ) (vs : List Visit) (s : σ) : σ := vs.foldl (fun s v => act v s) s

theorem Proceeds.run (hcb : Proceeds cb Good act) (vs : List Visit) (hs : Good s) :
    Good (Pci.run act vs s) := by
  induction vs generalizing s with
  | nil => exact hs
  | cons v vs ih => exact ih (hcb.good v s hs)

/-- The outcome of a scan that was not cut short. -/
def completed (act : Visit → σ → σ) (s : σ) (vs : Option (List Visit)) : Option (Outcome σ) :=
  vs.map fun vs => ⟨.success, false, run act vs s⟩

/-- The scan of a bus makes the visits `next`. -/
def Scans (act : Visit → σ → σ) (Good : σ → Prop)
    (scan : Decision → UInt8 → σ → Option (Outcome σ)) (next : UInt8 → Option (List Visit)) :
    Prop :=
  ∀ b s, Good s → scan .proceed b s = completed act s (next b)

theorem andThen_completed {vs ws : Option (List Visit)} {k : σ → Option (Outcome σ)}
    (hk : ∀ x, vs = some x → k (run act x s) = completed act (run act x s) ws) :
    andThen (completed act s vs) k = completed act s (appendM vs ws) := by
  cases vs with
  | none => rfl
  | some x =>
    show k (run act x s) = _
    rw [hk x rfl]
    cases ws with
    | none => rfl
    | some y => simp [completed, appendM, run]

theorem readCfg16_vendorId (hd : d < 32) (hf : f < 8) :
    readCfg16 cfg b d f vendorIdOffset = .ok (cfg.vendorId b d f) := by
  rw [readCfg16, accessStatus_success cfg b hd hf (.inr ⟨rfl, by decide⟩) (by decide)]
  rfl

section

variable (hcb : Proceeds cb Good act) (hscan : Scans act Good scan next)
include hcb hscan

theorem scanPciFunction_eq (hd : d < 32) (hf : f < 8) (hs : Good s) :
    scanPciFunction cfg cb scan .proceed b d f (act (.function b d f) s) =
      completed act s (functionVisits cfg next b d f) := by
  obtain ⟨call, hcall, hbus⟩ := hcb.bus
  have hs' := hcb.good (.function b d f) s hs
  simp only [scanPciFunction, readCfg8_ok cfg b hd hf (show baseClassOffset < 0x20 by decide),
    readCfg8_ok cfg b hd hf (show subClassOffset < 0x20 by decide),
    readCfg8_ok cfg b hd hf (show secondaryBusOffset < 0x20 by decide), hcall, functionVisits,
    Config.secondary]
  by_cases hclass : cfg.byte b d f baseClassOffset = 0x06 ∧ cfg.byte b d f subClassOffset = 0x04
  · by_cases hsec : cfg.byte b d f secondaryBusOffset = 0
    · simp [hclass, hsec, completed, run]
    · simp only [hclass, hsec, and_self, if_true, ne_eq, not_false_eq_true, reduceCtorEq]
      rw [hbus _ _ hs']
      show scan .proceed _ _ = _
      rw [hscan _ _ (hcb.good _ _ hs')]
      simp only [completed, Option.map_map]
      rfl
  · rw [if_neg hclass, if_neg fun h => hclass ⟨h.1, h.2.1⟩]
    rfl

theorem scanFunctions_eq (hd : d < 32) (fs : List Nat) (s : σ) (hfs : (∀ f ∈ fs, f < 8))
    (hs : Good s) :
    scanFunctions cfg cb scan .proceed b d fs false s =
      completed act s (concatM (functionVisits cfg next b d)
        (fs.filter fun f => ¬ 0 < f ∨ cfg.vendorId b d f ≠ 0xFFFF)) := by
  induction fs generalizing s with
  | nil => rfl
  | cons f fs ih =>
    have hf : f < 8 := hfs f List.mem_cons_self
    have hfs' : ∀ g ∈ fs, g < 8 := fun g hg => hfs g (List.mem_cons_of_mem f hg)
    obtain ⟨call, hcall, hfun⟩ := hcb.function
    have hvisit : visit (cb.function.map fun call => call b d f) .proceed false s =
        some (.proceed, false, act (.function b d f) s) := by
      simp [visit, hcall, hfun b d f s hs]
    have hbody : andThen (scanPciFunction cfg cb scan .proceed b d f (act (.function b d f) s))
          (scanFunctions cfg cb scan .proceed b d fs false) =
        completed act s (concatM (functionVisits cfg next b d)
          (f :: fs.filter fun f => ¬ 0 < f ∨ cfg.vendorId b d f ≠ 0xFFFF)) := by
      rw [scanPciFunction_eq hcb hscan hd hf hs]
      exact andThen_completed fun x _ => ih _ hfs' (hcb.run x hs)
    unfold scanFunctions
    by_cases hpos : 0 < f
    · rw [if_pos hpos, readCfg16_vendorId hd hf]
      by_cases hven : cfg.vendorId b d f = 0xFFFF
      · rw [List.filter_cons_of_neg (by simp [hpos, hven])]
        simp only [hven, if_true]
        exact ih s hfs' hs
      · rw [List.filter_cons_of_pos (by simp [hven])]
        simp only [hven, if_false, hvisit]
        exact hbody
    · rw [if_neg hpos, hvisit, List.filter_cons_of_pos (by simp [hpos])]
      exact hbody

theorem scanPciDevice_eq (hd : d < 32) (hs : Good s) :
    scanPciDevice cfg cb scan .proceed b d (act (.device b d) s) =
      completed act s (deviceVisits cfg next b d) := by
  have hlt : ∀ f ∈ List.range (if cfg.byte b d 0 headerTypeOffset &&& 0x80 ≠ 0 then 8 else 1),
      f < 8 := by
    intro f hf
    have := List.mem_range.mp hf
    split at this <;> omega
  simp only [scanPciDevice, readCfg8_ok cfg b hd (show 0 < 8 by decide)
    (show headerTypeOffset < 0x20 by decide)]
  rw [scanFunctions_eq hcb hscan hd _ _ hlt (hcb.good _ _ hs)]
  simp only [deviceVisits, Config.functions, completed, Option.map_map]
  rfl

theorem scanDevices_eq (ds : List Nat) (s : σ) (hds : (∀ d ∈ ds, d < 32)) (hs : Good s) :
    scanDevices cfg cb scan .proceed b ds false s =
      completed act s (concatM (deviceVisits cfg next b)
        (ds.filter fun d => cfg.vendorId b d 0 ≠ 0xFFFF)) := by
  induction ds generalizing s with
  | nil => rfl
  | cons d ds ih =>
    have hd : d < 32 := hds d List.mem_cons_self
    have hds' : ∀ e ∈ ds, e < 32 := fun e he => hds e (List.mem_cons_of_mem d he)
    obtain ⟨call, hcall, hdev⟩ := hcb.device
    unfold scanDevices
    rw [readCfg16_vendorId hd (by omega)]
    by_cases hven : cfg.vendorId b d 0 = 0xFFFF
    · rw [List.filter_cons_of_neg (by simp [hven])]
      simp only [hven, if_true]
      exact ih s hds' hs
    · rw [List.filter_cons_of_pos (by simp [hven])]
      have hvisit : visit (cb.device.map fun call => call b d) .proceed false s =
          some (.proceed, false, act (.device b d) s) := by
        simp [visit, hcall, hdev b d s hs]
      simp only [hven, if_false, hvisit]
      rw [scanPciDevice_eq hcb hscan hd hs]
      exact andThen_completed fun x _ => ih _ hds' (hcb.run x hs)

end

/-- **A scan whose callbacks all let it continue makes the visits in order.** -/
theorem scanPciBus_eq (hcb : Proceeds cb Good act) (fuel : Nat) :
    Scans act Good (scanPciBus cfg cb fuel) (visits cfg fuel) := by
  induction fuel with
  | zero => intro b s _; rfl
  | succ fuel ih =>
    intro b s hs
    exact scanDevices_eq hcb ih _ s (fun d hd => List.mem_range.mp hd) hs

end Run

/-! ## What is visited -/

section Members

variable {cfg : Config} {fuel : Nat} {b : UInt8} {d f : Nat} {v : Visit} {vs : List Visit}
  {next : UInt8 → Option (List Visit)}

theorem mem_functionVisits (h : functionVisits cfg next b d f = some vs) :
    v ∈ vs ↔ v = .function b d f ∨ ∃ s ws, cfg.secondary b d f = some s ∧ next s = some ws ∧
      (v = .bus s ∨ v ∈ ws) := by
  obtain ⟨hs, rfl⟩ | ⟨s, ws, hs, hws, rfl⟩ := functionVisits_eq_some.mp h
  · simp [hs]
  · simp [hs, hws]

theorem mem_deviceVisits (h : deviceVisits cfg next b d = some vs) :
    v ∈ vs ↔ v = .device b d ∨ ∃ f ∈ cfg.functions b d, ∃ ws,
      functionVisits cfg next b d f = some ws ∧ v ∈ ws := by
  obtain ⟨ws, hws, rfl⟩ := Option.map_eq_some_iff.mp h
  rw [List.mem_cons, mem_concatM hws]

/-- The visit belongs to a bus behind `b`, or to `b` itself. -/
def Visit.Under (cfg : Config) (b : UInt8) : Visit → Prop
  | .bus x => ∃ y, cfg.Reach b y ∧ cfg.Behind y x
  | .device x d => cfg.Reach b x ∧ d ∈ cfg.devices x
  | .function x d f => cfg.Reach b x ∧ d ∈ cfg.devices x ∧ f ∈ cfg.functions x d

theorem Visit.Under.behind {s : UInt8} (hs : cfg.Behind b s) (h : v.Under cfg s) :
    v.Under cfg b := by
  cases v with
  | bus x =>
    obtain ⟨y, hy, hx⟩ := h
    exact ⟨y, hy.head hs, hx⟩
  | device x d => exact ⟨h.1.head hs, h.2⟩
  | function x d f => exact ⟨h.1.head hs, h.2⟩

/-- A visit under `b` is one of its own or one under a bus right behind it. -/
theorem Visit.Under.cases (h : v.Under cfg b) :
    (∃ d ∈ cfg.devices b, v = .device b d ∨ ∃ f ∈ cfg.functions b d, v = .function b d f) ∨
      ∃ s, cfg.Behind b s ∧ (v = .bus s ∨ v.Under cfg s) := by
  cases v with
  | bus x =>
    obtain ⟨y, hy, hx⟩ := h
    rcases Relation.ReflTransGen.cases_head hy with rfl | ⟨s, hs, hsy⟩
    · exact .inr ⟨x, hx, .inl rfl⟩
    · exact .inr ⟨s, hs, .inr ⟨y, hsy, hx⟩⟩
  | device x d =>
    rcases Relation.ReflTransGen.cases_head h.1 with rfl | ⟨s, hs, hsx⟩
    · exact .inl ⟨d, h.2, .inl rfl⟩
    · exact .inr ⟨s, hs, .inr ⟨hsx, h.2⟩⟩
  | function x d f =>
    rcases Relation.ReflTransGen.cases_head h.1 with rfl | ⟨s, hs, hsx⟩
    · exact .inl ⟨d, h.2.1, .inr ⟨f, h.2.2, rfl⟩⟩
    · exact .inr ⟨s, hs, .inr ⟨hsx, h.2⟩⟩

/-- **The scan visits everything on the buses behind `b`, and nothing else.** -/
theorem mem_visits_iff (h : visits cfg fuel b = some vs) : v ∈ vs ↔ v.Under cfg b := by
  induction fuel generalizing b vs with
  | zero => cases h
  | succ fuel ih =>
    constructor
    · intro hv
      obtain ⟨d, hd, x, hx, hv⟩ := (mem_concatM h).mp hv
      rcases (mem_deviceVisits hx).mp hv with rfl | ⟨f, hf, y, hy, hv⟩
      · exact ⟨.refl, hd⟩
      · rcases (mem_functionVisits hy).mp hv with rfl | ⟨s, ws, hs, hws, hv⟩
        · exact ⟨.refl, hd, hf⟩
        · have hbehind : cfg.Behind b s := ⟨d, f, hd, hf, hs⟩
          rcases hv with rfl | hv
          · exact ⟨b, .refl, hbehind⟩
          · exact ((ih hws).mp hv).behind hbehind
    · intro hv
      rcases hv.cases with ⟨d, hd, hv⟩ | ⟨s, ⟨d, f, hbr⟩, hv⟩
      · rcases hv with rfl | ⟨f, hf, rfl⟩
        · obtain ⟨x, hx⟩ := exists_of_concatM h hd
          exact (mem_concatM h).mpr ⟨d, hd, x, hx, (mem_deviceVisits hx).mpr (.inl rfl)⟩
        · obtain ⟨z, hz, hsub⟩ := visits_function h hd hf
          exact hsub _ ((mem_functionVisits hz).mpr (.inl rfl))
      · obtain ⟨z, hz, hsub⟩ := visits_function h hbr.device_mem hbr.function_mem
        obtain ⟨ws, hws⟩ := visits_behind h hbr
        refine hsub _ ((mem_functionVisits hz).mpr (.inr ⟨s, ws, hbr.secondary_eq, hws, ?_⟩))
        exact hv.imp id (ih hws).mpr

end Members

/-! ## Trees of buses -/

/-- The buses form a finite tree below bus 0: no descent is endless, and bridges have distinct
secondary buses. -/
structure Config.IsTree (cfg : Config) : Prop where
  finite   : Acc (fun s b => cfg.Behind b s) 0
  distinct : ∀ {b b' s d d' f f'}, cfg.Reach 0 b → cfg.Reach 0 b' → cfg.Bridge b d f s →
    cfg.Bridge b' d' f' s → b = b' ∧ d = d' ∧ f = f'

section Tree

variable {cfg : Config} {b s s' x : UInt8} {d d' f f' : Nat}

theorem Config.Reach.acc (h : cfg.Reach b x) (hacc : Acc (fun s b => cfg.Behind b s) b) :
    Acc (fun s b => cfg.Behind b s) x := by
  induction h with
  | refl => exact hacc
  | tail _ hstep ih => exact ih.inv hstep

/-- No bus is behind itself: a cycle can be turned by one bridge. -/
theorem not_reach_back (hacc : Acc (fun s b => cfg.Behind b s) b) :
    ∀ s, cfg.Behind b s → ¬ cfg.Reach s b := by
  induction hacc with
  | intro b _ ih =>
    intro s hs hback
    rcases Relation.ReflTransGen.cases_head hback with rfl | ⟨t, ht, htb⟩
    · exact ih s hs s hs .refl
    · exact ih s hs t ht (htb.tail hs)

theorem Config.IsTree.not_reach (ht : cfg.IsTree) (hb : cfg.Reach 0 b) (hs : cfg.Behind b s) :
    ¬ cfg.Reach s b :=
  not_reach_back (hb.acc ht.finite) s hs

/-- The buses behind two different bridges of a bus have nothing in common. -/
theorem Config.IsTree.disjoint (ht : cfg.IsTree) (hb : cfg.Reach 0 b) (hbr : cfg.Bridge b d f s)
    (hbr' : cfg.Bridge b d' f' s') (hx : cfg.Reach s x) (hx' : cfg.Reach s' x) :
    d = d' ∧ f = f' := by
  have hs : cfg.Reach 0 s := hb.tail ⟨d, f, hbr⟩
  have hs' : cfg.Reach 0 s' := hb.tail ⟨d', f', hbr'⟩
  -- going up from `x` the way is determined
  let Up (s b : UInt8) : Prop := cfg.Reach 0 b ∧ cfg.Behind b s
  have hup : Relator.RightUnique Up := by
    rintro s b b' ⟨hb, d, f, hbr⟩ ⟨hb', d', f', hbr'⟩
    exact (ht.distinct hb hb' hbr hbr').1
  have hclimb : ∀ {a y}, cfg.Reach 0 a → cfg.Reach a y → Relation.ReflTransGen Up y a := by
    intro a y ha hy
    induction hy with
    | refl => exact .refl
    | tail hay hstep ih => exact ih.head ⟨ha.trans hay, hstep⟩
  have hdown : ∀ {y a}, Relation.ReflTransGen Up y a → cfg.Reach a y := by
    intro y a h
    induction h with
    | refl => exact .refl
    | tail _ hstep ih => exact ih.head hstep.2
  -- a bus above another one behind `b` would be above `b`
  have habove : ∀ {s s' d f}, cfg.Bridge b d f s → cfg.Behind b s' → cfg.Reach s' s → s = s' := by
    intro s s' d f hbr hbehind h
    rcases Relation.ReflTransGen.cases_tail h with heq | ⟨y, hy, e, g, hyr⟩
    · exact heq
    · obtain ⟨rfl, -⟩ := ht.distinct ((hb.tail hbehind).trans hy) hb hyr hbr
      exact absurd hy (ht.not_reach hb hbehind)
  obtain rfl : s = s' := by
    rcases Relation.ReflTransGen.total_of_right_unique hup (hclimb hs hx) (hclimb hs' hx')
      with h | h
    · exact habove hbr ⟨d', f', hbr'⟩ (hdown h)
    · exact (habove hbr' ⟨d, f, hbr⟩ (hdown h)).symm
  exact (ht.distinct hb hb hbr hbr').2

/-- The bus a visit is about. -/
def Visit.home : Visit → UInt8
  | .bus b | .device b _ | .function b _ _ => b

theorem Visit.Under.reach {v : Visit} (h : v.Under cfg b) : cfg.Reach b v.home := by
  cases v with
  | bus x =>
    obtain ⟨y, hy, hx⟩ := h
    exact hy.tail hx
  | device x d => exact h.1
  | function x d f => exact h.1

/-- The visit is that of the function, or is made behind it. -/
def Visit.At (cfg : Config) (b : UInt8) (d f : Nat) (v : Visit) : Prop :=
  v = .function b d f ∨ ∃ s, cfg.Bridge b d f s ∧ cfg.Reach s v.home

theorem Visit.At.unique {v : Visit} (ht : cfg.IsTree) (hb : cfg.Reach 0 b) (h : v.At cfg b d f)
    (h' : v.At cfg b d' f') : d = d' ∧ f = f' := by
  rcases h with rfl | ⟨s, hs, hv⟩
  · rcases h' with heq | ⟨s', hs', hv'⟩
    · cases heq
      exact ⟨rfl, rfl⟩
    · exact absurd hv' (ht.not_reach hb ⟨_, _, hs'⟩)
  · rcases h' with rfl | ⟨s', hs', hv'⟩
    · exact absurd hv (ht.not_reach hb ⟨_, _, hs⟩)
    · exact ht.disjoint hb hs hs' hv hv'

variable {fuel : Nat} {v : Visit} {vs : List Visit}

theorem at_of_mem_functionVisits (hd : d ∈ cfg.devices b) (hf : f ∈ cfg.functions b d)
    (h : functionVisits cfg (visits cfg fuel) b d f = some vs) (hv : v ∈ vs) : v.At cfg b d f := by
  rcases (mem_functionVisits h).mp hv with rfl | ⟨s, ws, hs, hws, hv⟩
  · exact .inl rfl
  · refine .inr ⟨s, ⟨hd, hf, hs⟩, ?_⟩
    rcases hv with rfl | hv
    · exact .refl
    · exact ((mem_visits_iff hws).mp hv).reach

/-- A visit of a device is not one of its functions'. -/
theorem Visit.At.ne_device (ht : cfg.IsTree) (hb : cfg.Reach 0 b) (h : v.At cfg b d f) (e : Nat) :
    v ≠ .device b e := by
  rintro rfl
  rcases h with heq | ⟨s, hs, hv⟩
  · cases heq
  · exact ht.not_reach hb ⟨_, _, hs⟩ hv

/-- The device a visit below it belongs to. -/
theorem of_mem_deviceVisits (hd : d ∈ cfg.devices b)
    (h : deviceVisits cfg (visits cfg fuel) b d = some vs) (hv : v ∈ vs) :
    v = .device b d ∨ ∃ f, v.At cfg b d f := by
  rcases (mem_deviceVisits h).mp hv with rfl | ⟨f, hf, z, hz, hv⟩
  · exact .inl rfl
  · exact .inr ⟨f, at_of_mem_functionVisits hd hf hz hv⟩

/-- **Nothing is visited twice in a tree of buses.** -/
theorem nodup_visits (ht : cfg.IsTree) (hb : cfg.Reach 0 b) (h : visits cfg fuel b = some vs) :
    (.bus b :: vs).Nodup := by
  induction fuel generalizing b vs with
  | zero => cases h
  | succ fuel ih =>
    refine List.nodup_cons.mpr ⟨?_, ?_⟩
    · intro hmem
      obtain ⟨y, hy, hyb⟩ := (mem_visits_iff h).mp hmem
      rcases Relation.ReflTransGen.cases_head hy with rfl | ⟨s, hs, hsy⟩
      · exact ht.not_reach hb hyb .refl
      · exact ht.not_reach hb hs (hsy.tail hyb)
    refine nodup_concatM h (List.nodup_range.filter _) ?_ ?_
    · -- the visits of one device
      intro d hd x hx
      obtain ⟨y, hy, rfl⟩ := Option.map_eq_some_iff.mp hx
      refine List.nodup_cons.mpr ⟨?_, nodup_concatM hy (List.nodup_range.filter _) ?_ ?_⟩
      · intro hmem
        obtain ⟨f, hf, z, hz, hv⟩ := (mem_concatM hy).mp hmem
        exact (at_of_mem_functionVisits hd hf hz hv).ne_device ht hb d rfl
      · intro f hf z hz
        obtain ⟨-, rfl⟩ | ⟨s, ws, hs, hws, rfl⟩ := functionVisits_eq_some.mp hz
        · simp
        · have hbr : cfg.Bridge b d f s := ⟨hd, hf, hs⟩
          refine List.nodup_cons.mpr ⟨fun hmem => ?_, ih (hb.tail ⟨d, f, hbr⟩) hws⟩
          rcases List.mem_cons.mp hmem with heq | hmem
          · cases heq
          · exact ht.not_reach hb ⟨d, f, hbr⟩ ((mem_visits_iff hws).mp hmem).reach
      · intro f hf f' hf' hne z z' hz hz' v hv hv'
        exact hne (Visit.At.unique ht hb (at_of_mem_functionVisits hd hf hz hv)
          (at_of_mem_functionVisits hd hf' hz' hv')).2
    · intro d hd d' hd' hne x x' hx hx' v hv hv'
      rcases of_mem_deviceVisits hd hx hv, of_mem_deviceVisits hd' hx' hv' with
        ⟨rfl | ⟨f, hf⟩, heq | ⟨f', hf'⟩⟩
      · exact hne (Visit.device.inj heq).2
      · exact hf'.ne_device ht hb d rfl
      · exact hf.ne_device ht hb d' heq
      · exact hne (hf.unique ht hb hf').1

end Tree

end FoliOS.Strata.Pci
