import FoliOS.Strata.Paging.Refine

/-!
# Strata — copying to and from a local address space

`StMmP_ReadLocal`, `StMmP_WriteLocal` and `StMmP_SetLocal` cut their range into
spans of consecutive frames and reach each span through the direct map. Bytes
are a view of the words of memory, so that a copy may also hit a page table. The
loop the three share keeps a record of its spans, each with the state it was
reached in.

`span_mapped` says that a span runs over the frames of its own pages.
`transfer_local_iff` is the main result: a call keeps to local pages exactly when
it starts at one, or asks for some bytes at a page that is not mapped; nothing
rejects the kernel half as such (`kernel_write_diverges`).
-/

namespace FoliOS.Strata.Paging

open Lib

variable {v w : Nat} {σ : Type}

abbrev Byte := BitVec 8

/-- `ADDR_TO_PAGE` -/
def addrToPage (addr : Nat) : Nat := addr / pageSize

/-! ## Bytes of physical memory -/

/-- The index of the word that holds a physical address within its frame. -/
def wordIndex (pa : Nat) : Fin 512 := Fin.ofNat 512 (pa % pageSize / 8)

def State.byte (s : State) (pa : Nat) : Byte :=
  ((s.mem (pa / pageSize) (wordIndex pa)) >>> (8 * (pa % 8))).setWidth 8

/-- A word with its `k`-th byte replaced. -/
def putByte (w : Word) (k : Nat) (b : Byte) : Word :=
  (w &&& ~~~(0xFF#64 <<< (8 * k))) ||| (b.setWidth 64 <<< (8 * k))

def State.setByte (s : State) (pa : Nat) (b : Byte) : State :=
  s.write (pa / pageSize) (wordIndex pa)
    (putByte (s.mem (pa / pageSize) (wordIndex pa)) (pa % 8) b)

/-- `n` bytes from `pa + i` on become those of `buf`. -/
def State.setBytes (pa : Nat) (buf : Nat → Byte) : Nat → Nat → State → State
  | 0, _, s => s
  | n + 1, i, s => State.setBytes pa buf n (i + 1) (s.setByte (pa + i) (buf i))

/-! ## Spans -/

/-- A range of the direct map, by physical address. -/
structure Span where
  phys : Nat
  len : Nat
  deriving DecidableEq, Repr

/-- The loop over the entries of a page table: how many frames follow `pfn` in order. -/
def contiguousPages (s : State) (pt idx pfn : Nat) : Nat → Nat → Nat
  | 0, c => c
  | fuel + 1, c =>
    if idx + c < 512 then
      let next := s.mem pt (Fin.ofNat 512 (idx + c))
      if !isPresent next then c
      else if frameOf next ≠ pfn + c then c
      else contiguousPages s pt idx pfn fuel (c + 1)
    else c

/-- `local_addr_to_directmap_span` up to `has_span`: the frame of a page, and the number
of pages from there on that lie in consecutive frames. -/
def spanFrames (s : State) (root vpn : Nat) : Except StStatus (Nat × Nat) :=
  if vpn > virtPageMax then .error .invalidValue
  else if pml4HoleStart ≤ vpn ∧ vpn ≤ pml4HoleEnd then .error .pageNotPresent
  else
    let pml4e := s.mem root (pml4Index vpn)
    if !isPresent pml4e then .error .pageNotPresent
    else
      let pdpte := s.mem (frameOf pml4e) (pdptIndex vpn)
      if !isPresent pdpte then .error .pageNotPresent
      else if isHuge pdpte then .ok (frameOf pdpte + (vpn &&& 0x3FFFF), 2 ^ 18 - (vpn &&& 0x3FFFF))
      else
        let pde := s.mem (frameOf pdpte) (pdIndex vpn)
        if !isPresent pde then .error .pageNotPresent
        else if isHuge pde then .ok (frameOf pde + (vpn &&& 0x1FF), 2 ^ 9 - (vpn &&& 0x1FF))
        else
          let pt := frameOf pde
          let pte := s.mem pt (ptIndex vpn)
          if !isPresent pte then .error .pageNotPresent
          else .ok (frameOf pte, contiguousPages s pt (ptIndex vpn) (frameOf pte) 512 1)

/-- `local_addr_to_directmap_span` -/
def localAddrToDirectmapSpan (s : State) (root addr maxLen : Nat) : Except StStatus Span :=
  if maxLen = 0 then .ok ⟨0, 0⟩
  else
    match spanFrames s root (addrToPage addr) with
    | .error st => .error st
    | .ok (pfn, pages) =>
      let available := pages * pageSize - addr % pageSize
      .ok ⟨pfn * pageSize + addr % pageSize, if available > maxLen then maxLen else available⟩

/-! ## The three transfers -/

/-- `StMm_HandlePageFault`: it turns down pages that are not local; what it does with
the others is `resolve`. -/
def handlePageFault (resolve : State → Nat → StStatus × State) (s : State) (addr : Nat) :
    StStatus × State :=
  if !isLocalVpn (addrToPage addr) then (.pageNotPresent, s) else resolve s addr

/-- The head of a round: the span at `addr`, after a page fault if need be. -/
def findSpan (resolve : State → Nat → StStatus × State) (root addr len : Nat) (s : State) :
    Except StStatus Span × State :=
  match localAddrToDirectmapSpan s root addr len with
  | .error .pageNotPresent =>
    let (st, s) := handlePageFault resolve s addr
    if checkSuccess st then (localAddrToDirectmapSpan s root addr len, s) else (.error st, s)
  | r => (r, s)

/-- A span a transfer went over, and the state it did so in. -/
structure Visit where
  state : State
  span : Span

/-- The loop of the three functions; `copy` is what a round does with its span, `σ` what
it carries along. -/
def transferLoop {σ : Type} (resolve : State → Nat → StStatus × State)
    (copy : Span → State × σ → State × σ) (root : Nat) :
    Nat → Nat → Nat → State × σ → StStatus × (State × σ) × List Visit
  | 0, _, _, x => (.success, x, [])
  | fuel + 1, addr, len, (s, a) =>
    if len = 0 then (.success, (s, a), [])
    else
      match findSpan resolve root addr len s with
      | (.error st, s) => (st, (s, a), [])
      | (.ok span, s) =>
        let (st, x, visits) := transferLoop resolve copy root fuel ((addr + span.len) % wordLimit)
          (len - span.len) (copy span (s, a))
        (st, x, ⟨s, span⟩ :: visits)

/-- `StMmP_ReadLocal`; the bytes read are carried along. -/
def stMmPReadLocal (resolve : State → Nat → StStatus × State) (root : Nat) (s : State)
    (addr len : Nat) : StStatus × (State × List Byte) × List Visit :=
  transferLoop resolve
    (fun span (s, buf) => (s, buf ++ (List.range span.len).map fun i => s.byte (span.phys + i)))
    root len addr len (s, [])

/-- `StMmP_WriteLocal`; the number of bytes written is carried along. -/
def stMmPWriteLocal (resolve : State → Nat → StStatus × State) (root : Nat) (s : State)
    (addr : Nat) (buf : Nat → Byte) (len : Nat) : StStatus × (State × Nat) × List Visit :=
  transferLoop resolve
    (fun span (s, n) => (s.setBytes span.phys (fun i => buf (n + i)) span.len 0, n + span.len))
    root len addr len (s, 0)

/-- `StMmP_SetLocal` -/
def stMmPSetLocal (resolve : State → Nat → StStatus × State) (root : Nat) (s : State)
    (addr : Nat) (value : Byte) (len : Nat) : StStatus × (State × Unit) × List Visit :=
  transferLoop resolve
    (fun span (s, u) => (s.setBytes span.phys (fun _ => value) span.len 0, u))
    root len addr len (s, ())

/-! ## A span runs over the frames of its own pages -/

variable {s : State} {root vpn pfn n : Nat}

/-- The pages of one 1 GiB block. -/
def SameBlock (v w : Nat) : Prop := w / 2 ^ 18 = v / 2 ^ 18

/-- The two walks stop at the same places, with the same status. -/
theorem spanFrames_error_iff (s : State) (root vpn : Nat) (st : StStatus) :
    spanFrames s root vpn = .error st ↔ walkPage s root vpn = .error st := by
  unfold spanFrames walkPage
  dsimp only
  split_ifs <;> simp

theorem SameBlock.indices (h : SameBlock v w) :
    pml4Index w = pml4Index v ∧ pdptIndex w = pdptIndex v := by
  simp only [SameBlock] at h
  simp only [pml4Index, pdptIndex, Fin.ext_iff, Fin.val_ofNat]
  omega

theorem SameBlock.bounds (h : SameBlock v w) :
    (w > virtPageMax ↔ v > virtPageMax) ∧
    ((pml4HoleStart ≤ w ∧ w ≤ pml4HoleEnd) ↔ (pml4HoleStart ≤ v ∧ v ≤ pml4HoleEnd)) := by
  simp only [SameBlock, virtPageMax, pml4HoleStart, pml4HoleEnd] at *
  omega

/-- Every page counted by the loop is mapped to the next frame in order. -/
theorem contiguousPages_spec (s : State) (pt idx pfn : Nat) :
    ∀ fuel c, (∀ j < c, idx + j < 512 ∧ isPresent (s.mem pt (Fin.ofNat 512 (idx + j))) = true ∧
        frameOf (s.mem pt (Fin.ofNat 512 (idx + j))) = pfn + j) →
      c ≤ contiguousPages s pt idx pfn fuel c ∧
      ∀ j, j < contiguousPages s pt idx pfn fuel c →
        idx + j < 512 ∧ isPresent (s.mem pt (Fin.ofNat 512 (idx + j))) = true ∧
        frameOf (s.mem pt (Fin.ofNat 512 (idx + j))) = pfn + j := by
  intro fuel
  induction fuel with
  | zero => exact fun c h => ⟨le_rfl, h⟩
  | succ fuel ih =>
    intro c h
    unfold contiguousPages
    by_cases hidx : idx + c < 512
    · by_cases hp : isPresent (s.mem pt (Fin.ofNat 512 (idx + c))) = true
      · by_cases hf : frameOf (s.mem pt (Fin.ofNat 512 (idx + c))) = pfn + c
        · simp only [hidx, hp, hf, if_true, Bool.not_true, Bool.false_eq_true, if_false, ne_eq,
            not_true_eq_false]
          have := ih (c + 1) fun j hj => by
            rcases Nat.lt_succ_iff_lt_or_eq.mp hj with hj | rfl
            · exact h j hj
            · exact ⟨hidx, hp, hf⟩
          exact ⟨by omega, this.2⟩
        · simp only [hidx, hp, hf, if_true, Bool.not_true, Bool.false_eq_true, if_false, ne_eq,
            not_false_eq_true]
          exact ⟨le_rfl, h⟩
      · simp only [hidx, hp, if_true, Bool.not_false]
        exact ⟨le_rfl, h⟩
    · rw [if_neg hidx]
      exact ⟨le_rfl, h⟩

/-- The pages a walk counts lie in one block, mapped to consecutive frames. -/
theorem spanFrames_ok (h : spanFrames s root vpn = .ok (pfn, n)) :
    0 < n ∧ ∀ j < n, SameBlock vpn (vpn + j) ∧ vpnToPfn s root (vpn + j) = .ok (pfn + j) := by
  unfold spanFrames at h
  dsimp only at h
  split_ifs at h with h0 hhole h4 h3 h3' h2 h2' h1
  · -- a 1 GiB page
    cases h
    have hmask : ∀ v : Nat, v &&& 0x3FFFF = v % 2 ^ 18 :=
      fun v => Nat.and_two_pow_sub_one_eq_mod v 18
    rw [hmask]
    refine ⟨by omega, fun j hj => ?_⟩
    have hblock : SameBlock vpn (vpn + j) := by
      simp only [SameBlock]
      omega
    refine ⟨hblock, ?_⟩
    rw [vpnToPfn, walkPage, hblock.indices.1, hblock.indices.2]
    simp only [hblock.bounds.1, hblock.bounds.2, h0, hhole, h4, h3, h3', if_true, if_false,
      Bool.false_eq_true, Except.map, hmask]
    congr 1
    omega
  · -- a 2 MiB page
    cases h
    have hmask : ∀ v : Nat, v &&& 0x1FF = v % 2 ^ 9 := fun v => Nat.and_two_pow_sub_one_eq_mod v 9
    rw [hmask]
    refine ⟨by omega, fun j hj => ?_⟩
    have hblock : SameBlock vpn (vpn + j) := by
      simp only [SameBlock]
      omega
    have hpd : pdIndex (vpn + j) = pdIndex vpn := by
      simp only [pdIndex, Fin.ext_iff, Fin.val_ofNat]
      omega
    refine ⟨hblock, ?_⟩
    rw [vpnToPfn, walkPage, hblock.indices.1, hblock.indices.2, hpd]
    simp only [hblock.bounds.1, hblock.bounds.2, h0, hhole, h4, h3, h3', h2, h2', if_true, if_false,
      Bool.false_eq_true, Except.map, hmask]
    congr 1
    omega
  · -- a run of 4 KiB pages
    cases h
    have hstart : Fin.ofNat 512 ((ptIndex vpn).val + 0) = ptIndex vpn := by
      simp [Fin.ext_iff, ptIndex]
    obtain ⟨hpos, hrun⟩ := contiguousPages_spec s _ (ptIndex vpn).val
        (frameOf (s.mem _ (ptIndex vpn))) 512 1 fun j hj => by
      obtain rfl : j = 0 := by omega
      rw [hstart]
      exact ⟨(ptIndex vpn).isLt, by simpa using h1, rfl⟩
    refine ⟨hpos, fun j hj => ?_⟩
    obtain ⟨hidx, hp, hf⟩ := hrun j hj
    have hpath := path_add hidx
    simp only [path, List.cons_append, List.nil_append, List.cons.injEq, and_true] at hpath
    obtain ⟨hi4, hi3, hi2, hi1⟩ := hpath
    have hblock : SameBlock vpn (vpn + j) := by
      simp only [ptIndex, Fin.val_ofNat] at hidx
      simp only [SameBlock]
      omega
    refine ⟨hblock, ?_⟩
    rw [vpnToPfn, walkPage, hi4, hi3, hi2, hi1]
    simp only [hblock.bounds.1, hblock.bounds.2, h0, hhole, h4, h3, h3', h2, h2', hp, hf, if_false,
      Bool.false_eq_true, Bool.not_true, Except.map, Nat.and_zero, Nat.add_zero]

/-- **Spans.** A span has at least one byte and at most those asked for, and each of its
bytes lies in the frame its own page is mapped to, at the same offset. -/
theorem span_mapped {addr len : Nat} {span : Span} (hlen : 0 < len)
    (h : localAddrToDirectmapSpan s root addr len = .ok span) :
    0 < span.len ∧ span.len ≤ len ∧ ∀ k, k < span.len →
      SameBlock (addrToPage addr) (addrToPage (addr + k)) ∧
      vpnToPfn s root (addrToPage (addr + k)) = .ok ((span.phys + k) / pageSize) ∧
      (span.phys + k) % pageSize = (addr + k) % pageSize := by
  rw [localAddrToDirectmapSpan, if_neg (by omega)] at h
  cases hf : spanFrames s root (addrToPage addr) with
  | error st => simp [hf] at h
  | ok x =>
    obtain ⟨pfn, pages⟩ := x
    obtain ⟨hpos, hpages⟩ := spanFrames_ok hf
    rw [hf] at h
    cases h
    have havail : 0 < pages * pageSize - addr % pageSize := by
      simp only [pageSize] at *
      omega
    refine ⟨by dsimp only; split <;> omega, by dsimp only; split <;> omega, fun k hk => ?_⟩
    have hk' : k < pages * pageSize - addr % pageSize := by
      dsimp only at hk
      split at hk <;> omega
    have hdiv : addrToPage (addr + k) = addrToPage addr + (addr % pageSize + k) / pageSize := by
      simp only [addrToPage, pageSize]
      omega
    have hj : (addr % pageSize + k) / pageSize < pages := by
      simp only [pageSize] at *
      omega
    obtain ⟨hblock, hpfn⟩ := hpages _ hj
    refine ⟨hdiv ▸ hblock, ?_, ?_⟩
    · rw [hdiv, hpfn]
      congr 1
      simp only [pageSize]
      omega
    · simp only [pageSize]
      omega

/-! ## Transfers that start at a local page -/

/-- Each byte of the span lies in a frame that is mapped at a local page. -/
def Visit.Local (root : Nat) (v : Visit) : Prop :=
  ∀ k, k < v.span.len →
    ∃ w, isLocalVpn w = true ∧ vpnToPfn v.state root w = .ok ((v.span.phys + k) / pageSize)

variable {resolve : State → Nat → StStatus × State} {s' : State} {addr len : Nat} {span : Span}

theorem isLocalVpn_iff (v : Nat) : isLocalVpn v = true ↔ v ≤ localVpnLimit := decide_eq_true_iff

theorem findSpan_ok (h : findSpan resolve root addr len s = (.ok span, s')) :
    localAddrToDirectmapSpan s' root addr len = .ok span := by
  unfold findSpan at h
  split at h
  · generalize handlePageFault resolve s addr = r at h
    dsimp only at h
    split_ifs at h
    · rw [← (Prod.mk.inj h).2]
      exact (Prod.mk.inj h).1
    · simp at h
  · rw [← (Prod.mk.inj h).2]
    exact (Prod.mk.inj h).1

/-- A mapped local page lies below the hole. -/
theorem lt_hole_of_mapped {f : Nat} (hl : isLocalVpn v = true) (h : vpnToPfn s root v = .ok f) :
    v < pml4HoleStart := by
  have hc : Canonical v := by
    by_contra hc
    obtain ⟨st, hst⟩ := walkPage_of_not_canonical s root hc
    simp [vpnToPfn, hst, Except.map] at h
  rw [isLocalVpn_iff] at hl
  simp only [Canonical, pml4HoleStart, pml4HoleEnd, localVpnLimit] at *
  omega

/-- The span at a local page stays at local pages, and so does what follows it: the last
block below the hole is followed by the hole. -/
theorem span_local (hlen : 0 < len) (hl : isLocalVpn (addrToPage addr) = true)
    (h : localAddrToDirectmapSpan s root addr len = .ok span) :
    Visit.Local root ⟨s, span⟩ ∧
      isLocalVpn (addrToPage ((addr + span.len) % wordLimit)) = true := by
  obtain ⟨hpos, -, hmap⟩ := span_mapped hlen h
  have hbelow : addrToPage addr < pml4HoleStart := lt_hole_of_mapped hl (hmap 0 hpos).2.1
  have hblock : ∀ k < span.len, addrToPage (addr + k) < pml4HoleStart := by
    intro k hk
    have hsame := (hmap k hk).1
    simp only [SameBlock, pml4HoleStart] at *
    omega
  refine ⟨fun k hk => ⟨addrToPage (addr + k), ?_, (hmap k hk).2.1⟩, ?_⟩
  · have := hblock k hk
    rw [isLocalVpn_iff]
    simp only [localVpnLimit, pml4HoleStart] at *
    omega
  · have hlast := hblock (span.len - 1) (by omega)
    rw [isLocalVpn_iff]
    simp only [localVpnLimit, pml4HoleStart, wordLimit, addrToPage, pageSize] at *
    omega

/-- Every round of a transfer that starts at a local page keeps to local pages. -/
theorem transferLoop_local (copy : Span → State × σ → State × σ) (fuel : Nat) :
    ∀ addr len (x : State × σ), isLocalVpn (addrToPage addr) = true →
      ∀ v ∈ (transferLoop resolve copy root fuel addr len x).2.2, v.Local root := by
  induction fuel with
  | zero => exact fun _ _ _ _ v hv => absurd hv List.not_mem_nil
  | succ fuel ih =>
    intro addr len x hl v hv
    obtain ⟨s, a⟩ := x
    unfold transferLoop at hv
    by_cases hlen : len = 0
    · simp [hlen] at hv
    · rw [if_neg hlen] at hv
      cases hf : findSpan resolve root addr len s with
      | mk r s' =>
        cases r with
        | error st => simp [hf] at hv
        | ok span =>
          obtain ⟨hvisit, hnext⟩ := span_local (by omega) hl (findSpan_ok hf)
          simp only [hf] at hv
          rcases List.mem_cons.mp hv with rfl | hv
          · exact hvisit
          · exact ih _ _ _ hnext v hv

/-! ## Transfers that start elsewhere -/

variable (resolve) in
/-- At a kernel page that is not mapped a transfer gives up in its first round. -/
theorem transferLoop_unmapped (copy : Span → State × σ → State × σ) (a : σ) {st : StStatus}
    (hl : isLocalVpn (addrToPage addr) = false) (hlen : 0 < len)
    (h : walkPage s root (addrToPage addr) = .error st) :
    checkSuccess (transferLoop resolve copy root len addr len (s, a)).1 = false ∧
      (transferLoop resolve copy root len addr len (s, a)).2.2 = [] := by
  obtain ⟨n, rfl⟩ : ∃ n, len = n + 1 := ⟨len - 1, by omega⟩
  have hspan : localAddrToDirectmapSpan s root addr (n + 1) = .error st := by
    rw [localAddrToDirectmapSpan, if_neg (by omega), (spanFrames_error_iff s root _ st).mpr h]
  have hst : st = .invalidValue ∨ st = .pageNotPresent := by
    unfold walkPage at h
    dsimp only at h
    split_ifs at h <;> simp_all
  unfold transferLoop findSpan
  rcases hst with rfl | rfl <;> simp [hspan, handlePageFault, hl, checkSuccess]

/-- At a mapped page the first round goes ahead. -/
theorem transferLoop_mapped (copy : Span → State × σ → State × σ) (a : σ) {x : Word × Nat}
    (hlen : 0 < len) (h : walkPage s root (addrToPage addr) = .ok x) :
    (transferLoop resolve copy root len addr len (s, a)).2.2 ≠ [] := by
  obtain ⟨n, rfl⟩ : ∃ n, len = n + 1 := ⟨len - 1, by omega⟩
  cases hf : spanFrames s root (addrToPage addr) with
  | error st =>
    rw [(spanFrames_error_iff s root _ st).mp hf] at h
    simp at h
  | ok y =>
    have hspan : ∃ span, localAddrToDirectmapSpan s root addr (n + 1) = .ok span := by
      rw [localAddrToDirectmapSpan, if_neg (by omega), hf]
      exact ⟨_, rfl⟩
    obtain ⟨span, hspan⟩ := hspan
    unfold transferLoop findSpan
    simp [hspan]

/-! ## The calls -/

/-- A call of one of the three functions. -/
inductive Transfer where
  | read (addr len : UInt64)
  | write (addr : UInt64) (buf : Nat → Byte) (len : UInt64)
  | set (addr : UInt64) (value : Byte) (len : UInt64)

def Transfer.startPage : Transfer → Nat
  | .read addr _ | .write addr _ _ | .set addr _ _ => addrToPage addr.toNat

def Transfer.size : Transfer → Nat
  | .read _ len | .write _ _ len | .set _ _ len => len.toNat

/-- The status a call returns, and the spans it went over. -/
def Transfer.run (resolve : State → Nat → StStatus × State) (root : Nat) (s : State) :
    Transfer → StStatus × List Visit
  | .read addr len =>
    let r := stMmPReadLocal resolve root s addr.toNat len.toNat
    (r.1, r.2.2)
  | .write addr buf len =>
    let r := stMmPWriteLocal resolve root s addr.toNat buf len.toNat
    (r.1, r.2.2)
  | .set addr value len =>
    let r := stMmPSetLocal resolve root s addr.toNat value len.toNat
    (r.1, r.2.2)

/-- Bytes are transferred only in frames mapped at local pages, and a call in the kernel
half fails without transferring any. -/
structure LocalOnly (root page : Nat) (r : StStatus × List Visit) : Prop where
  visits : ∀ v ∈ r.2, v.Local root
  kernel : isLocalVpn page = false → checkSuccess r.1 = false ∧ r.2 = []

theorem transferLoop_localOnly_iff (copy : Span → State × σ → State × σ) (a : σ) :
    LocalOnly root (addrToPage addr)
        ((transferLoop resolve copy root len addr len (s, a)).1,
          (transferLoop resolve copy root len addr len (s, a)).2.2) ↔
      isLocalVpn (addrToPage addr) = true ∨
        (0 < len ∧ ∃ st, walkPage s root (addrToPage addr) = .error st) := by
  cases hl : isLocalVpn (addrToPage addr) with
  | true =>
    exact ⟨fun _ => Or.inl rfl, fun _ => ⟨transferLoop_local copy len addr len (s, a) hl,
      fun h => absurd h (by rw [hl]; simp)⟩⟩
  | false =>
    constructor
    · intro h
      obtain ⟨hfail, hnone⟩ := h.kernel hl
      rcases Nat.eq_zero_or_pos len with rfl | hlen
      · simp [transferLoop, checkSuccess] at hfail
      · refine Or.inr ⟨hlen, ?_⟩
        cases hw : walkPage s root (addrToPage addr) with
        | error st => exact ⟨st, rfl⟩
        | ok x => exact absurd hnone (transferLoop_mapped copy a hlen hw)
    · rintro (h | ⟨hlen, st, hw⟩)
      · simp at h
      · obtain ⟨hfail, hnone⟩ := transferLoop_unmapped resolve copy a hl hlen hw
        exact ⟨fun v hv => absurd (hnone ▸ hv) List.not_mem_nil, fun _ => ⟨hfail, hnone⟩⟩

/-- **Local transfers.** A call keeps to local pages exactly when it starts at one, or
asks for some bytes at a page that is not mapped. -/
theorem transfer_local_iff (resolve : State → Nat → StStatus × State) (root : Nat) (s : State)
    (c : Transfer) :
    LocalOnly root c.startPage (c.run resolve root s) ↔
      isLocalVpn c.startPage = true ∨
        (0 < c.size ∧ ∃ st, walkPage s root c.startPage = .error st) := by
  cases c with
  | read addr len => exact transferLoop_localOnly_iff _ _
  | write addr buf len => exact transferLoop_localOnly_iff _ _
  | set addr value len => exact transferLoop_localOnly_iff _ _

/-- A page fault that is never resolved. -/
def unresolved (s : State) (_addr : Nat) : StStatus × State := (.pageNotPresent, s)

/-- **A process writes to the kernel.** With no local page mapped at all, a write of one
byte at the start of the direct map succeeds and changes frame 0x40000. -/
theorem kernel_write_diverges :
    ¬LocalOnly 1 (Transfer.write 0xFFFFC00000000000 (fun _ => 0x2A) 1).startPage
        ((Transfer.write 0xFFFFC00000000000 (fun _ => 0x2A) 1).run unresolved 1 directMapState) ∧
      directMapState.byte 0x40000000 = 0x03 ∧
      (stMmPWriteLocal unresolved 1 directMapState 0xFFFFC00000000000 (fun _ => 0x2A) 1).2.1.1.byte
        0x40000000 = 0x2A := by
  refine ⟨fun h => ?_, by decide +kernel, by decide +kernel⟩
  have hsuccess : ((Transfer.write 0xFFFFC00000000000 (fun _ => 0x2A) 1).run unresolved 1
      directMapState).1 = .success := by decide +kernel
  have hfail := (h.kernel (by decide)).1
  exact absurd hfail (by decide)

end FoliOS.Strata.Paging
