import FoliOS.Strata.Paging.Transfer

/-!
# Strata — transfers byte by byte

The reference of `StMmP_ReadLocal`, `StMmP_WriteLocal` and `StMmP_SetLocal` is a machine that
accesses one byte a step, at the frame the byte's own page is mapped to. Like a processor with a TLB
it may go on with translations it has looked up, even if an access hits a page table.

* `span_byte`         — a span is the bytes of its addresses, one by one.
* `transfer_bytewise` — a call on available pages succeeds, and does what the machine does in `len`
  accesses; where no page table is mapped at a local page, it is the call that looks up every byte.
-/

namespace FoliOS.Strata.Paging

variable {st : StStatus} {d fuel n pa root : Nat} {span : Span} {s' t s : State}

/-! ## The machine -/

/-- The physical address of a byte. -/
def byteAddress (s : State) (root addr : Nat) : Except StStatus Nat :=
  (vpnToPfn s root (addrToPage addr)).map fun pfn => pfn * pageSize + addr % pageSize

/-- A transfer after `done` accesses. `tables` is the state whose translations are in use. -/
structure Machine (σ : Type) where
  tables : State
  done : Nat
  mem : State
  carried : σ

def Machine.start {σ : Type} (s : State) (a : σ) : Machine σ := ⟨s, 0, s, a⟩

section Machine

variable {σ : Type} (resolve : State → Nat → StStatus × State)
  (access : Nat → State × σ → State × σ) (root addr len : Nat)

/-- A step towards the `len` bytes from `addr` on; `access` is what happens at a physical
address. -/
inductive ByteStep : Machine σ → Machine σ → Prop where
  | lookUp (m : Machine σ) : ByteStep m { m with tables := m.mem }
  | fault (m : Machine σ) {st : StStatus} {s : State} (hlt : m.done < len)
      (habsent : byteAddress m.mem root (addr + m.done) = .error .pageNotPresent)
      (hfault : handlePageFault resolve m.mem (addr + m.done) = (st, s))
        (hst : checkSuccess st = true) :
      ByteStep m { m with tables := s, mem := s }
  | access (m : Machine σ) {pa : Nat} (hlt : m.done < len)
      (hpage : byteAddress m.tables root (addr + m.done) = .ok pa) :
      ByteStep m ⟨m.tables, m.done + 1, (access pa (m.mem, m.carried)).1,
        (access pa (m.mem, m.carried)).2⟩

/-- The machines that a transfer from `s` passes through. -/
def Reached (s : State) (a : σ) : Machine σ → Prop :=
  Relation.ReflTransGen (ByteStep resolve access root addr len) (Machine.start s a)

/-- The page of the byte is present, or a page fault makes it so. -/
def ByteAvailable (s : State) (addr : Nat) : Prop :=
  (∃ pa, byteAddress s root addr = .ok pa) ∨
    ∃ st s', handlePageFault resolve s addr = (st, s') ∧ checkSuccess st = true ∧
      ∃ pa, byteAddress s' root addr = .ok pa

/-- Whenever the transfer gets to a byte, its page is available. -/
def AllAvailable (s : State) (a : σ) : Prop :=
  ∀ m, Reached resolve access root addr len s a m → m.done < len →
    ByteAvailable resolve root m.mem (addr + m.done)

/-- The accesses at consecutive physical addresses. -/
def accessRun (pa : Nat) : Nat → State × σ → State × σ
  | 0, x => x
  | n + 1, x => access (pa + n) (accessRun pa n x)

/-- The address of one byte, after a page fault if need be. -/
def findByte (addr : Nat) (s : State) : Except StStatus Nat × State :=
  match byteAddress s root addr with
  | .error .pageNotPresent =>
    let (st, s) := handlePageFault resolve s addr
    if checkSuccess st then (byteAddress s root addr, s) else (.error st, s)
  | r => (r, s)

/-- Every byte looked up in the tables as they are then. -/
def bytewise : Nat → Nat → State × σ → StStatus × (State × σ)
  | 0, _, x => (.success, x)
  | n + 1, addr, (s, a) =>
    match findByte resolve root addr s with
    | (.error st, s) => (st, (s, a))
    | (.ok pa, s) => bytewise n (addr + 1) (access pa (s, a))

end Machine

/-! ## A span is the bytes of its addresses -/

section Spans

variable {σ : Type} {resolve : State → Nat → StStatus × State}
  {access : Nat → State × σ → State × σ} {root addr len : Nat} {s t : State} {span : Span}

theorem span_byte (hlen : 0 < len) (h : localAddrToDirectmapSpan s root addr len = .ok span)
    {k : Nat} (hk : k < span.len) : byteAddress s root (addr + k) = .ok (span.phys + k) := by
  obtain ⟨-, -, hmap⟩ := span_mapped hlen h
  obtain ⟨-, hpfn, hoff⟩ := hmap k hk
  unfold byteAddress
  rw [hpfn, ← hoff]
  exact congrArg Except.ok (Nat.div_add_mod' _ _)

theorem byteAddress_error : byteAddress s root addr = .error st ↔
    walkPage s root (addrToPage addr) = .error st := by
  unfold byteAddress vpnToPfn
  cases walkPage s root (addrToPage addr) <;> simp [Except.map]

/-- The walk to a local page fails for want of an entry only. -/
theorem byteAddress_local_error (hlocal : isLocalVpn (addrToPage addr) = true)
    (h : byteAddress s root addr = .error st) : st = .pageNotPresent := by
  rw [byteAddress_error] at h
  have hpage := (isLocalVpn_iff _).mp hlocal
  have hmax : ¬ addrToPage addr > virtPageMax := by
    unfold localVpnLimit at hpage
    unfold virtPageMax
    omega
  unfold walkPage at h
  dsimp only at h
  split_ifs at h <;> exact (Except.error.inj h).symm

theorem span_error (hlen : 0 < len) :
    localAddrToDirectmapSpan s root addr len = .error st ↔ byteAddress s root addr = .error st := by
  rw [byteAddress_error, ← spanFrames_error_iff, localAddrToDirectmapSpan, if_neg (by omega)]
  cases spanFrames s root (addrToPage addr) <;> simp

/-- A span starts at the address of its first byte. -/
theorem span_phys (hlen : 0 < len) :
    (localAddrToDirectmapSpan s root addr len).map Span.phys = byteAddress s root addr := by
  cases h : localAddrToDirectmapSpan s root addr len with
  | error st => exact ((span_error hlen).mp h).symm
  | ok span => exact (span_byte hlen h (span_mapped hlen h).1).symm

/-- The two searches agree. -/
theorem findByte_eq (resolve : State → Nat → StStatus × State) (root addr : Nat) (hlen : 0 < len)
    (s : State) : findByte resolve root addr s =
    ((findSpan resolve root addr len s).1.map Span.phys, (findSpan resolve root addr len s).2) := by
  unfold findByte findSpan
  rw [← span_phys hlen]
  cases h : localAddrToDirectmapSpan s root addr len with
  | ok span => rfl
  | error st =>
    cases st <;> try rfl
    generalize handlePageFault resolve s addr = r
    obtain ⟨st, s'⟩ := r
    dsimp only [Except.map]
    by_cases hst : checkSuccess st = true
    · rw [if_pos hst, if_pos hst, ← span_phys hlen]
      rfl
    · rw [if_neg hst, if_neg hst]

/-- The bytes of a span, accessed one by one with the tables it was found in. -/
theorem span_steps (resolve : State → Nat → StStatus × State) (access : Nat → State × σ → State × σ)
    (mem : State) (a : σ) (hd : d < len)
    (h : localAddrToDirectmapSpan t root (addr + d) (len - d) = .ok span) :
    ∀ k ≤ span.len, Relation.ReflTransGen (ByteStep resolve access root addr len) ⟨t, d, mem, a⟩
      ⟨t, d + k, (accessRun access span.phys k (mem, a)).1,
        (accessRun access span.phys k (mem, a)).2⟩ := by
  obtain ⟨-, hle, -⟩ := span_mapped (by omega) h
  intro k
  induction k with
  | zero => exact fun _ => .refl
  | succ k ih =>
    intro hk
    have hbyte := span_byte (by omega) h (k := k) (by omega)
    rw [Nat.add_assoc] at hbyte
    exact (ih (by omega)).tail (ByteStep.access ⟨t, d + k, _, _⟩ (by show d + k < len; omega) hbyte)

end Spans

/-! ## The loop -/

section Loop

variable {σ : Type} {resolve : State → Nat → StStatus × State}
  {access : Nat → State × σ → State × σ} {copy : Span → State × σ → State × σ}
  {root addr len : Nat} {s : State} {a : σ}

theorem transferLoop_ok (hlen : 0 < len) (h : findSpan resolve root addr len s = (.ok span, s')) :
    transferLoop resolve copy root (fuel + 1) addr len (s, a) =
      let rest :=
        transferLoop resolve copy root fuel ((addr + span.len) % wordLimit) (len - span.len)
        (copy span (s', a))
      (rest.1, rest.2.1, ⟨s', span⟩ :: rest.2.2) := by
  rw [transferLoop, if_neg (by omega), h]

theorem transferLoop_error (hlen : 0 < len)
    (h : findSpan resolve root addr len s = (.error st, s')) :
    transferLoop resolve copy root (fuel + 1) addr len (s, a) = (st, (s', a), []) := by
  rw [transferLoop, if_neg (by omega), h]

theorem transferLoop_zero (x : State × σ) :
    transferLoop resolve copy root fuel addr 0 x = (.success, x, []) := by
  cases fuel <;> rfl

/-- Inside the local half addresses do not wrap. -/
theorem wrap_local (hlocal : ∀ i < len, isLocalVpn (addrToPage (addr + i)) = true) (hn : 0 < n)
    (hle : d + n ≤ len) : (addr + d + n) % wordLimit = addr + (d + n) := by
  have hlast := (isLocalVpn_iff _).mp (hlocal (d + n - 1) (by omega))
  unfold addrToPage pageSize localVpnLimit at hlast
  unfold wordLimit
  omega

/-- Where the search finds a span, the machine gets to the same tables. -/
theorem findSpan_steps (access : Nat → State × σ → State × σ) (a : σ) (t : State) {mem : State}
    (hd : d < len) (h : findSpan resolve root (addr + d) (len - d) mem = (.ok span, s')) :
    Relation.ReflTransGen (ByteStep resolve access root addr len) ⟨t, d, mem, a⟩
      ⟨s', d, s', a⟩ := by
  unfold findSpan at h
  split at h
  next habsent =>
    dsimp only at h
    split at h
    next hst =>
      obtain ⟨-, rfl⟩ := Prod.mk.inj h
      exact .single (.fault ⟨t, d, mem, a⟩ hd ((span_error (by omega)).mp habsent) rfl hst)
    next => cases (Prod.mk.inj h).1
  next =>
    obtain ⟨-, rfl⟩ := Prod.mk.inj h
    exact .single (.lookUp ⟨t, d, mem, a⟩)

theorem findSpan_available (hlen : 0 < len) (hlocal : isLocalVpn (addrToPage addr) = true)
    (h : ByteAvailable resolve root s addr) :
    ∃ span s', findSpan resolve root addr len s = (.ok span, s') := by
  have hspan : ∀ {s pa}, byteAddress s root addr = .ok pa →
      ∃ span, localAddrToDirectmapSpan s root addr len = .ok span := by
    intro s pa hpa
    cases hs : localAddrToDirectmapSpan s root addr len with
    | ok span => exact ⟨span, rfl⟩
    | error st =>
      rw [(span_error hlen).mp hs] at hpa
      cases hpa
  cases hbyte : byteAddress s root addr with
  | ok pa =>
    obtain ⟨span, hs⟩ := hspan hbyte
    exact ⟨span, s, by rw [findSpan, hs]⟩
  | error st =>
    obtain rfl := byteAddress_local_error hlocal hbyte
    rcases h with ⟨pa, hpa⟩ | ⟨st, s', hfault, hst, pa, hpa⟩
    · rw [hbyte] at hpa
      cases hpa
    · obtain ⟨span, hs⟩ := hspan hpa
      refine ⟨span, s', ?_⟩
      rw [findSpan, (span_error hlen).mpr hbyte]
      rw [hfault]
      dsimp only
      rw [if_pos hst, hs]

/-- Every copy of a span is a run of accesses. -/
def Bulk (copy : Span → State × σ → State × σ) (access : Nat → State × σ → State × σ) : Prop :=
  ∀ span x, copy span x = accessRun access span.phys span.len x

/-- On available pages the loop ends with the machine's last state. -/
theorem transferLoop_steps (hcopy : Bulk copy access)
    (hlocal : ∀ i < len, isLocalVpn (addrToPage (addr + i)) = true)
    (havail : AllAvailable resolve access root addr len s a) :
    ∀ fuel d t mem b, d ≤ len → len - d ≤ fuel →
    Reached resolve access root addr len s a ⟨t, d, mem, b⟩ →
      ∃ t' x visits, transferLoop resolve copy root fuel (addr + d) (len - d) (mem, b) =
        (.success, x, visits) ∧
        Reached resolve access root addr len s a ⟨t', len, x.1, x.2⟩ ∧
        (visits.map (·.span.len)).sum = len - d := by
  intro fuel
  induction fuel with
  | zero =>
    intro d t mem b hd hfuel hr
    obtain rfl : d = len := by omega
    refine ⟨t, (mem, b), [], ?_, hr, by simp⟩
    rw [Nat.sub_self, transferLoop_zero]
  | succ fuel ih =>
    intro d t mem b hd hfuel hr
    rcases Nat.eq_or_lt_of_le hd with rfl | hlt
    · refine ⟨t, (mem, b), [], ?_, hr, by simp⟩
      rw [Nat.sub_self, transferLoop_zero]
    obtain ⟨span, s', hfind⟩ := findSpan_available (show 0 < len - d by omega) (hlocal d hlt)
      (havail _ hr hlt)
    have hsteps := findSpan_steps access b t hlt hfind
    have hspan := findSpan_ok hfind
    obtain ⟨hpos, hle, -⟩ := span_mapped (by omega) hspan
    have hnext := (hr.trans hsteps).trans (span_steps resolve access s' b hlt hspan span.len le_rfl)
    obtain ⟨t', x, visits, heq, hreach, hsum⟩ := ih (d + span.len) _ _ _ (by omega) (by omega) hnext
    have hwrap := wrap_local hlocal (d := d) (n := span.len) (by omega) (by omega)
    refine ⟨t', x, ⟨s', span⟩ :: visits, ?_, hreach, ?_⟩
    · rw [transferLoop_ok (by omega) hfind]
      rw [hwrap, hcopy, Nat.sub_sub, heq]
    · rw [List.map_cons, List.sum_cons, hsum]
      dsimp only
      omega

/-- No access changes where the bytes of the transfer lie. -/
def Stable (resolve : State → Nat → StStatus × State) (access : Nat → State × σ → State × σ)
    (root addr len : Nat) (s : State) (a : σ) : Prop :=
  ∀ m, Reached resolve access root addr len s a m → ∀ i pa, i < len →
    byteAddress m.mem root (addr + i) = .ok pa → ∀ k, k < len →
      byteAddress (access pa (m.mem, m.carried)).1 root (addr + k) =
        byteAddress m.mem root (addr + k)

/-- Within a span the bytes stay where they are. -/
theorem accessRun_stable (hstable : Stable resolve access root addr len s a) {b : σ} (hd : d < len)
    (hspan : localAddrToDirectmapSpan t root (addr + d) (len - d) = .ok span)
    (hr : Reached resolve access root addr len s a ⟨t, d, t, b⟩) :
    ∀ k ≤ span.len, ∀ i, i < len →
      byteAddress (accessRun access span.phys k (t, b)).1 root (addr + i) = byteAddress t root
        (addr + i) := by
  obtain ⟨-, hle, -⟩ := span_mapped (by omega) hspan
  intro k
  induction k with
  | zero => exact fun _ _ _ => rfl
  | succ k ih =>
    intro hk i hi
    have hbyte := span_byte (by omega) hspan (k := k) (by omega)
    rw [Nat.add_assoc, ← ih (by omega) (d + k) (by omega)] at hbyte
    have hstep := hr.trans (span_steps resolve access t b hd hspan k (by omega))
    exact (hstable _ hstep (d + k) _ (by omega) hbyte i hi).trans (ih (by omega) i hi)

theorem bytewise_succ (h : byteAddress s root addr = .ok pa) :
    bytewise resolve access root (n + 1) addr (s, a) =
      bytewise resolve access root n (addr + 1) (access pa (s, a)) := by
  rw [bytewise, findByte, h]

/-- The bytes of a span, looked up one by one. -/
theorem bytewise_span (hstable : Stable resolve access root addr len s a) {b : σ} (hd : d < len)
    (hspan : localAddrToDirectmapSpan t root (addr + d) (len - d) = .ok span)
    (hr : Reached resolve access root addr len s a ⟨t, d, t, b⟩) :
    ∀ k ≤ span.len, bytewise resolve access root (len - d) (addr + d) (t, b) =
      bytewise resolve access root (len - (d + k)) (addr + (d + k))
        (accessRun access span.phys k (t, b)) := by
  obtain ⟨-, hle, -⟩ := span_mapped (by omega) hspan
  intro k
  induction k with
  | zero => exact fun _ => rfl
  | succ k ih =>
    intro hk
    have hbyte := span_byte (by omega) hspan (k := k) (by omega)
    rw [Nat.add_assoc, ← accessRun_stable hstable hd hspan hr k (by omega) (d + k)
      (by omega)] at hbyte
    rw [ih (by omega), show len - (d + k) = len - (d + (k + 1)) + 1 by omega]
    exact bytewise_succ hbyte

/-- The loop and the bytewise transfer agree, whether they succeed or not. -/
theorem transferLoop_bytewise (hcopy : Bulk copy access)
    (hlocal : ∀ i < len, isLocalVpn (addrToPage (addr + i)) = true)
    (hstable : Stable resolve access root addr len s a) :
    ∀ fuel d t mem b, d ≤ len → len - d ≤ fuel →
    Reached resolve access root addr len s a ⟨t, d, mem, b⟩ →
      ((transferLoop resolve copy root fuel (addr + d) (len - d) (mem, b)).1,
        (transferLoop resolve copy root fuel (addr + d) (len - d) (mem, b)).2.1) =
          bytewise resolve access root (len - d) (addr + d) (mem, b) := by
  intro fuel
  induction fuel with
  | zero =>
    intro d t mem b hd hfuel _
    rw [show len - d = 0 by omega, transferLoop_zero]
    rfl
  | succ fuel ih =>
    intro d t mem b hd hfuel hr
    rcases Nat.eq_or_lt_of_le hd with rfl | hlt
    · rw [Nat.sub_self, transferLoop_zero]
      rfl
    have hbyte := findByte_eq resolve root (addr + d) (show 0 < len - d by omega) mem
    cases hfind : findSpan resolve root (addr + d) (len - d) mem with
    | mk r s' =>
      rw [hfind] at hbyte
      cases r with
      | error st =>
        rw [transferLoop_error (by omega) hfind, show len - d = len - d - 1 + 1 by omega, bytewise,
          hbyte]
        rfl
      | ok span =>
        have hspan := findSpan_ok hfind
        obtain ⟨hpos, hle, -⟩ := span_mapped (by omega) hspan
        have hfound := hr.trans (findSpan_steps access b t hlt hfind)
        have hnext := hfound.trans (span_steps resolve access s' b hlt hspan span.len le_rfl)
        -- the first byte is found in `mem`, the others where the fault left them
        have hfirst : bytewise resolve access root (len - d) (addr + d) (mem, b) =
            bytewise resolve access root (len - d) (addr + d) (s', b) := by
          have haddr : byteAddress s' root (addr + d) = .ok span.phys :=
            span_byte (by omega) hspan hpos
          rw [show len - d = len - d - 1 + 1 by omega, bytewise_succ haddr, bytewise, hbyte]
          rfl
        rw [transferLoop_ok (by omega) hfind, hfirst,
          bytewise_span hstable hlt hspan hfound span.len le_rfl,
          ← ih (d + span.len) _ _ _ (by omega) (by omega) hnext]
        rw [wrap_local hlocal hpos (by omega), hcopy, Nat.sub_sub]

end Loop

/-! ## Tables apart from the pages -/

/-- The frames `walkPage` reads. -/
def walkTables (s : State) (root vpn : Nat) : List Nat :=
  let pml4e := s.mem root (pml4Index vpn)
  let pdpte := s.mem (frameOf pml4e) (pdptIndex vpn)
  let pde := s.mem (frameOf pdpte) (pdIndex vpn)
  root :: if !isPresent pml4e then [] else
    frameOf pml4e :: if !isPresent pdpte || isHuge pdpte then [] else
      frameOf pdpte :: if !isPresent pde || isHuge pde then [] else [frameOf pde]

/-- No local page is mapped to a frame that holds a table of local pages. -/
def TablesApart (root : Nat) (s : State) : Prop :=
  ∀ v w f, isLocalVpn v = true → isLocalVpn w = true → vpnToPfn s root v = .ok f →
  f ∉ walkTables s root w

theorem walkPage_congr {vpn : Nat} (h : ∀ f ∈ walkTables s root vpn, s'.mem f = s.mem f) :
    walkPage s' root vpn = walkPage s root vpn := by
  unfold walkTables at h
  unfold walkPage
  dsimp only
  rw [h root List.mem_cons_self]
  replace h := fun f hf => h f (List.mem_cons_of_mem _ hf)
  by_cases h4 : isPresent (s.mem root (pml4Index vpn)) = true
  swap
  · rw [Bool.eq_false_iff.mpr h4]
    rfl
  rw [h4] at h ⊢
  rw [h _ List.mem_cons_self]
  replace h := fun f hf => h f (List.mem_cons_of_mem _ hf)
  generalize s.mem (frameOf (s.mem root (pml4Index vpn))) (pdptIndex vpn) = pdpte at h ⊢
  by_cases h3 : (!isPresent pdpte || isHuge pdpte) = true
  · cases hp : isPresent pdpte <;> cases hh : isHuge pdpte <;> simp_all
  rw [if_neg h3] at h
  rw [h _ List.mem_cons_self]
  replace h := fun f hf => h f (List.mem_cons_of_mem _ hf)
  generalize s.mem (frameOf pdpte) (pdIndex vpn) = pde at h ⊢
  by_cases h2 : (!isPresent pde || isHuge pde) = true
  · cases hp : isPresent pde <;> cases hh : isHuge pde <;> simp_all
  rw [if_neg h2] at h
  rw [h _ List.mem_cons_self]

theorem setByte_mem {f : Nat} {b : Byte} (h : f ≠ pa / pageSize) :
    (s.setByte pa b).mem f = s.mem f := by
  funext i
  exact if_neg fun hc => h hc.1

/-- A write at a local page moves no local page. -/
theorem TablesApart.setByte (h : TablesApart root s) {addr : Nat} (b : Byte)
    (hlocal : isLocalVpn (addrToPage addr) = true) (hpa : byteAddress s root addr = .ok pa)
    {addr' : Nat} (hlocal' : isLocalVpn (addrToPage addr') = true) :
    byteAddress (s.setByte pa b) root addr' = byteAddress s root addr' := by
  have hframe : vpnToPfn s root (addrToPage addr) = .ok (pa / pageSize) := by
    unfold byteAddress at hpa
    cases hf : vpnToPfn s root (addrToPage addr) with
    | error st =>
      rw [hf] at hpa
      cases hpa
    | ok f =>
      rw [hf] at hpa
      obtain rfl : f * pageSize + addr % pageSize = pa := Except.ok.inj hpa
      rw [Nat.mul_comm, Nat.mul_add_div (by decide), Nat.div_eq_of_lt (Nat.mod_lt _ (by decide)),
        Nat.add_zero]
  have hwalk :
      walkPage (s.setByte pa b) root (addrToPage addr') = walkPage s root (addrToPage addr') := by
    refine walkPage_congr fun f hf => setByte_mem ?_
    rintro rfl
    exact h _ _ _ hlocal hlocal' hframe hf
  unfold byteAddress vpnToPfn
  rw [hwalk]

/-! ## The calls -/

/-- What a call carries along. -/
abbrev Transfer.Carried : Transfer → Type
  | .read .. => List Byte
  | .write .. => Nat
  | .set .. => Unit

def Transfer.addr : Transfer → Nat
  | .read addr _ | .write addr _ _ | .set addr _ _ => addr.toNat

def Transfer.initial : (c : Transfer) → c.Carried
  | .read .. => []
  | .write .. => (0 : Nat)
  | .set .. => ()

/-- The call: status, memory and what was carried along, and the spans. -/
def Transfer.exec (resolve : State → Nat → StStatus × State) (root : Nat) (s : State) :
    (c : Transfer) → StStatus × (State × c.Carried) × List Visit
  | .read addr len => stMmPReadLocal resolve root s addr.toNat len.toNat
  | .write addr buf len => stMmPWriteLocal resolve root s addr.toNat buf len.toNat
  | .set addr value len => stMmPSetLocal resolve root s addr.toNat value len.toNat

/-- One byte: the next of the buffer is read or written, or the value stored. -/
def Transfer.access : (c : Transfer) → Nat → State × c.Carried → State × c.Carried
  | .read .. => fun pa (s, buf) => (s, buf ++ [s.byte pa])
  | .write _ buf _ => fun pa (s, n) => (s.setByte pa (buf n), n + 1)
  | .set _ value _ => fun pa (s, u) => (s.setByte pa value, u)

/-- The machines that a call passes through. -/
def Transfer.Reached (resolve : State → Nat → StStatus × State) (root : Nat) (s : State)
    (c : Transfer) :
    Machine c.Carried → Prop :=
  Paging.Reached resolve c.access root c.addr c.size s c.initial

/-- The call does what the machine does in `c.size` accesses. Where no table is hit, it is the
transfer that looks up every byte. -/
structure Transfer.Faithful (resolve : State → Nat → StStatus × State) (root : Nat) (s : State)
    (c : Transfer) : Prop where
  returns  : (c.exec resolve root s).1 = .success
  accesses : ∃ t, c.Reached resolve root s
    ⟨t, c.size, (c.exec resolve root s).2.1.1, (c.exec resolve root s).2.1.2⟩
  exact    : ((c.exec resolve root s).2.2.map (·.span.len)).sum = c.size
  lookedUp :
      ((∃ addr len, c = .read addr len) ∨ ∀ m, c.Reached resolve root s m →
        TablesApart root m.mem) →
    ((c.exec resolve root s).1, (c.exec resolve root s).2.1) =
      bytewise resolve c.access root c.size c.addr (s, c.initial)

theorem read_bulk (addr len : UInt64) :
    Bulk (fun span (s, buf) =>
      (s, buf ++ (List.range span.len).map fun i => s.byte (span.phys + i)))
      (Transfer.read addr len).access := by
  rintro ⟨pa, n⟩ ⟨s, buf⟩
  show (s, buf ++ (List.range n).map fun i => s.byte (pa + i)) = accessRun _ pa n (s, buf)
  induction n with
  | zero => rw [List.range_zero, List.map_nil, List.append_nil]; rfl
  | succ n ih =>
    rw [accessRun, ← ih, List.range_succ, List.map_append, ← List.append_assoc]
    rfl

theorem setBytes_succ (pa : Nat) (buf : Nat → Byte) : ∀ (n i : Nat) (s : State),
    State.setBytes pa buf (n + 1) i s =
      (State.setBytes pa buf n i s).setByte (pa + (i + n)) (buf (i + n)) := by
  intro n
  induction n with
  | zero => exact fun i s => rfl
  | succ n ih =>
    intro i s
    rw [State.setBytes, ih, State.setBytes, show i + 1 + n = i + (n + 1) by omega]

theorem write_bulk (addr : UInt64) (buf : Nat → Byte) (len : UInt64) :
    Bulk (fun span (s, n) => (State.setBytes span.phys (fun i => buf (n + i)) span.len 0 s,
      n + span.len))
      (Transfer.write addr buf len).access := by
  rintro ⟨pa, k⟩ ⟨s, n⟩
  show (State.setBytes pa (fun i => buf (n + i)) k 0 s, n + k) = accessRun _ pa k (s, n)
  induction k with
  | zero => rfl
  | succ k ih =>
    rw [accessRun, ← ih, setBytes_succ, Nat.zero_add]
    rfl

theorem set_bulk (addr : UInt64) (value : Byte) (len : UInt64) :
    Bulk (fun span (s, u) => (State.setBytes span.phys (fun _ => value) span.len 0 s, u))
      (Transfer.set addr value len).access := by
  rintro ⟨pa, k⟩ ⟨s, u⟩
  show (State.setBytes pa (fun _ => value) k 0 s, u) = accessRun _ pa k (s, u)
  induction k with
  | zero => rfl
  | succ k ih =>
    rw [accessRun, ← ih, setBytes_succ, Nat.zero_add]
    rfl

/-- Accesses that read or that keep off the tables move no byte of the transfer. -/
theorem Transfer.stable {resolve : State → Nat → StStatus × State} {c : Transfer}
    (hlocal : ∀ i < c.size, isLocalVpn (addrToPage (c.addr + i)) = true)
    (h : (∃ addr len, c = .read addr len) ∨ ∀ m, c.Reached resolve root s m →
      TablesApart root m.mem) :
    Stable resolve c.access root c.addr c.size s c.initial := by
  intro m hm i pa hi hpa k hk
  rcases h with ⟨addr, len, rfl⟩ | h
  · rfl
  cases c with
  | read addr len => rfl
  | write addr buf len | set addr value len =>
    exact (h m hm).setByte _ (hlocal i hi) hpa (hlocal k hk)

/-- **Transfers byte by byte.** On local pages that are present or materialise on demand a call
succeeds; it accesses every byte of the range once, at the frame its own page is mapped to. -/
theorem transfer_bytewise (resolve : State → Nat → StStatus × State) (root : Nat) (s : State)
    (c : Transfer) (hlocal : ∀ i, i < c.size → isLocalVpn (addrToPage (c.addr + i)) = true)
    (havail : ∀ m, c.Reached resolve root s m → m.done < c.size →
      ByteAvailable resolve root m.mem (c.addr + m.done)) :
    c.Faithful resolve root s := by
  -- the three calls are the loop with their own copy
  obtain ⟨copy, hcopy, hexec⟩ : ∃ copy, Bulk copy c.access ∧
      c.exec resolve root s = transferLoop resolve copy root c.size c.addr c.size
        (s, c.initial) := by
    cases c with
    | read addr len => exact ⟨_, read_bulk addr len, rfl⟩
    | write addr buf len => exact ⟨_, write_bulk addr buf len, rfl⟩
    | set addr value len => exact ⟨_, set_bulk addr value len, rfl⟩
  obtain ⟨t, x, visits, heq, hreach, hsum⟩ :=
    transferLoop_steps hcopy hlocal havail c.size 0 s s c.initial
    (Nat.zero_le _) (Nat.sub_le _ _) .refl
  rw [Nat.add_zero, Nat.sub_zero, ← hexec] at heq
  refine ⟨by rw [heq], ⟨t, by rw [heq]; exact hreach⟩, by rw [heq]; exact hsum, fun h => ?_⟩
  rw [hexec]
  exact transferLoop_bytewise hcopy hlocal (Transfer.stable hlocal h) c.size 0 s s c.initial
    (Nat.zero_le _) (Nat.sub_le _ _) .refl

/-- Pages 0 and 1 in frames 8 and 5. -/
def twoPageState : State where
  mem f i :=
    if f = 1 ∧ i = 0 then 0x2003
    else if f = 2 ∧ i = 0 then 0x3003
    else if f = 3 ∧ i = 0 then 0x4003
    else if f = 4 ∧ i = 0 then 0x8003
    else if f = 4 ∧ i = 1 then 0x5003
    else if f = 8 ∧ i = 511 then 0x1100000000000000
    else if f = 5 ∧ i = 0 then 0x22
    else 0
  cache := []
  quarantine := []
  pulls := 0
  preempt := 0

theorem twoPageState_present : ∀ i < 2, byteAddress twoPageState 1 (4095 + i) =
    .ok (if i = 0 then 0x8FFF else 0x5000) := by
  decide +kernel

theorem twoPageState_reached {m : Machine (List Byte)}
    (h : (Transfer.read 4095 2).Reached unresolved 1 twoPageState m) : m.mem = twoPageState := by
  induction h with
  | refl => rfl
  | tail _ hstep ih =>
    cases hstep with
    | lookUp => exact ih
    | fault hlt habsent hfault hst =>
      rw [ih] at habsent
      cases (twoPageState_present _ hlt).symm.trans habsent
    | access hlt hpage => exact ih

/-- Two bytes on two pages. -/
theorem two_pages_bytewise : (Transfer.read 4095 2).Faithful unresolved 1 twoPageState ∧
    ((Transfer.read 4095 2).exec unresolved 1 twoPageState).2.1.2 = ([0x11, 0x22] : List Byte) := by
  refine ⟨transfer_bytewise unresolved 1 twoPageState (.read 4095 2) (by decide) fun m hm hlt =>
    Or.inl ?_, by decide +kernel⟩
  rw [twoPageState_reached hm]
  exact ⟨_, twoPageState_present m.done hlt⟩

end FoliOS.Strata.Paging
