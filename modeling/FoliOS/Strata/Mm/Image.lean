import FoliOS.Lib.Bytes
import FoliOS.Strata.Paging.Model
import FoliOS.Strata.Vmm.Links

/-!
# Strata — pages of an image (`mm/mm.c`)

A page of an image-backed reservation gets a frame that `fill_image_backed_frame` clears and copies
its part of the image into. Memory is a map from addresses to bytes; the image lies in it at `base`.
The second result of a copy is the stretch it reads.

`image_frame_filled`: for a backing that `validate_image_backing` has accepted, this succeeds at
every page of the range, reads the image only and leaves its bytes there, and zeros around them.
-/

namespace FoliOS.Strata.Mm

open Lib
open Paging (isLocalVpn localVpnLimit)
open Vmm

/-- `PAGE_TO_ADDR` -/
def pageToAddr (vpn : Nat) : Nat := vpn * pageSize % wordLimit

/-- `MEMMAP_DIRECTMAP_VPN_BASE` -/
def directmapVpnBase : Nat := 0xFFFFC00000000

/-- `phys_frame_to_directmap_ptr` -/
def physFrameToDirectmapPtr (pfn : Nat) : Nat :=
  (pfn * pageSize % wordLimit + pageToAddr directmapVpnBase) % wordLimit

/-- `validate_image_backing` -/
def validateImageBacking (vpn count : Nat) (backing : ImageBacking) : StStatus :=
  if count = 0 then .invalidValue
  else if count > (wordLimit - 1) / pageSize then .tooLarge
  else
    let rangeStart := pageToAddr vpn
    let rangeSize := count * pageSize % wordLimit
    if rangeSize > wordLimit - 1 - rangeStart then .invalidValue
    else
      let rangeEnd := (rangeStart + rangeSize) % wordLimit
      if backing.contentSize ≠ 0 ∧ backing.base = 0 then .invalidValue
      else if backing.contentOffset > backing.size then .invalidValue
      else if backing.contentSize > backing.size - backing.contentOffset then .invalidValue
      else if backing.contentSize > wordLimit - 1 - backing.contentAddr then .invalidValue
      else
        let contentEnd := (backing.contentAddr + backing.contentSize) % wordLimit
        if backing.contentAddr < rangeStart then .invalidValue
        else if contentEnd > rangeEnd then .invalidValue
        else .success

/-- `memset(frame, 0, PAGE_SIZE)` -/
def clearFrame (mem : Bytes) (frame : Nat) : Bytes := mem.put frame (List.replicate pageSize 0)

/-- `fill_image_backed_frame`: its status, the memory after it and what it reads of the image. -/
def fillImageBackedFrame (mem : Bytes) (pfn vpn : Nat) (backing : ImageBacking) :
    StStatus × Bytes × List Nat :=
  let frame := physFrameToDirectmapPtr pfn
  let mem := clearFrame mem frame
  if backing.contentSize = 0 then (.success, mem, [])
  else if backing.base = 0 then (.invalidValue, mem, [])
  else if backing.contentOffset > backing.size then (.invalidValue, mem, [])
  else if backing.contentSize > backing.size - backing.contentOffset then (.invalidValue, mem, [])
  else if backing.contentSize > wordLimit - 1 - backing.contentAddr then (.invalidValue, mem, [])
  else
    let pageStart := pageToAddr vpn
    let pageEnd := (pageStart + pageSize) % wordLimit
    let contentStart := backing.contentAddr
    let contentEnd := (backing.contentAddr + backing.contentSize) % wordLimit
    if pageEnd ≤ contentStart ∨ contentEnd ≤ pageStart then (.success, mem, [])
    else
      let overlapStart := if pageStart > contentStart then pageStart else contentStart
      let overlapEnd := if pageEnd < contentEnd then pageEnd else contentEnd
      let copyLen := subWord overlapEnd overlapStart
      let sourceOffset :=
        (backing.contentOffset + subWord overlapStart contentStart) % wordLimit
      if sourceOffset > backing.size then (.invalidValue, mem, [])
      else if copyLen > backing.size - sourceOffset then (.invalidValue, mem, [])
      else
        (.success,
          mem.put (frame + subWord overlapStart pageStart)
            (mem.slice (backing.base + sourceOffset) copyLen),
          (List.range copyLen).map (backing.base + sourceOffset + ·))

/-! ## What an accepted backing says -/

/-- What `validate_image_backing` has checked, where no address wraps around. -/
structure Fits (vpn count : Nat) (backing : ImageBacking) : Prop where
  addressable : (vpn + count) * pageSize < wordLimit
  source      : backing.contentOffset + backing.contentSize ≤ backing.size
  based       : backing.contentSize ≠ 0 → backing.base ≠ 0
  above       : vpn * pageSize ≤ backing.contentAddr
  below       : backing.contentSize ≠ 0 →
                  backing.contentAddr + backing.contentSize ≤ (vpn + count) * pageSize

/-- A check that returns `a` was passed where the result is another one. -/
theorem passed {α : Type} {c : Prop} [Decidable c] {a b r : α} (h : (if c then a else b) = r)
    (hne : a ≠ r) : ¬ c ∧ b = r := by
  by_cases hc : c
  · rw [if_pos hc] at h
    exact absurd h hne
  · rw [if_neg hc] at h
    exact ⟨hc, h⟩

theorem pageToAddr_of_lt {vpn : Nat} (h : vpn * pageSize < wordLimit) :
    pageToAddr vpn = vpn * pageSize :=
  Nat.mod_eq_of_lt h

theorem fits_of_validate {vpn count : Nat} {backing : ImageBacking} (hlocal : isLocalVpn vpn = true)
    (h : validateImageBacking vpn count backing = .success) : Fits vpn count backing := by
  have hvpn : vpn ≤ localVpnLimit := of_decide_eq_true hlocal
  have hstart : vpn * pageSize < wordLimit := by
    unfold localVpnLimit at hvpn
    unfold pageSize wordLimit
    omega
  obtain ⟨-, h⟩ := passed h nofun
  obtain ⟨hcount, h⟩ := passed h nofun
  have hsize : count * pageSize < wordLimit := by
    have hmul := (Nat.le_div_iff_mul_le (by decide)).mp (Nat.not_lt.mp hcount)
    omega
  rw [pageToAddr_of_lt hstart, Nat.mod_eq_of_lt hsize] at h
  obtain ⟨hrange, h⟩ := passed h nofun
  have hend : vpn * pageSize + count * pageSize < wordLimit := by omega
  rw [Nat.mod_eq_of_lt hend] at h
  obtain ⟨hbase, h⟩ := passed h nofun
  obtain ⟨hoff, h⟩ := passed h nofun
  obtain ⟨hsource, h⟩ := passed h nofun
  obtain ⟨hwrap, h⟩ := passed h nofun
  obtain ⟨habove, h⟩ := passed h nofun
  obtain ⟨hbelow, -⟩ := passed h nofun
  refine ⟨by rw [Nat.add_mul]; exact hend, by omega, fun hne hz => hbase ⟨hne, hz⟩,
    Nat.not_lt.mp habove, fun hne => ?_⟩
  rw [Nat.mod_eq_of_lt (by omega)] at hbelow
  rw [Nat.add_mul]
  exact Nat.not_lt.mp hbelow

/-! ## The frame -/

theorem clearFrame_frame (mem : Bytes) (frame : Nat) {i : Nat} (hi : i < pageSize) :
    clearFrame mem frame (frame + i) = 0 := by
  unfold clearFrame Bytes.put
  rw [List.length_replicate, if_pos ⟨Nat.le_add_right _ _, by omega⟩, Nat.add_sub_cancel_left,
    List.getD_eq_getElem?_getD, List.getElem?_replicate, if_pos hi]
  rfl

theorem clearFrame_of_notMem {mem : Bytes} {frame a : Nat} (h : a < frame ∨ frame + pageSize ≤ a) :
    clearFrame mem frame a = mem a :=
  Bytes.put_of_notMem (by rw [List.length_replicate]; omega)

/-- Whether the address of byte `i` of a page is one of the content. -/
def InContent (backing : ImageBacking) (vpn i : Nat) : Prop :=
  backing.contentAddr ≤ vpn * pageSize + i ∧
    vpn * pageSize + i < backing.contentAddr + backing.contentSize

/-- Where the image holds byte `i` of a page. -/
def sourceOf (backing : ImageBacking) (vpn i : Nat) : Nat :=
  backing.base + (backing.contentOffset + (vpn * pageSize + i - backing.contentAddr))

/-- A page of the image is in its frame. The copy finds the image in memory as it is once the frame
is cleared, which is as it was before unless the frame is part of the image itself. -/
structure ImageFilled (mem : Bytes) (frame vpn : Nat) (backing : ImageBacking)
    (r : StStatus × Bytes × List Nat) : Prop where
  status  : r.1 = .success
  reads   : ∀ a ∈ r.2.2, backing.base ≤ a ∧ a < backing.base + backing.size
  content : ∀ i, i < pageSize → InContent backing vpn i →
              r.2.1 (frame + i) = clearFrame mem frame (sourceOf backing vpn i)
  image   : (∀ a, backing.base ≤ a → a < backing.base + backing.size →
                a < frame ∨ frame + pageSize ≤ a) →
              ∀ i, i < pageSize → InContent backing vpn i →
                r.2.1 (frame + i) = mem (sourceOf backing vpn i)
  zeros   : ∀ i, i < pageSize → ¬ InContent backing vpn i → r.2.1 (frame + i) = 0

section

variable {mem : Bytes} {frame vpn : Nat} {backing : ImageBacking}

/-- A cleared frame is all a page without content needs. -/
theorem ImageFilled.cleared (h : ∀ i < pageSize, ¬ InContent backing vpn i) :
    ImageFilled mem frame vpn backing (.success, clearFrame mem frame, []) where
  status := rfl
  reads _ ha := absurd ha List.not_mem_nil
  content _ hi hin := absurd hin (h _ hi)
  image _ _ hi hin := absurd hin (h _ hi)
  zeros _ hi _ := clearFrame_frame mem frame hi

/-- `n` bytes are copied to the place `k` in the frame, which is where the content of the page
is. -/
theorem ImageFilled.copied {k n off : Nat} (hoff : off + n ≤ backing.size)
    (hin : ∀ i < pageSize, (InContent backing vpn i ↔ k ≤ i ∧ i < k + n))
    (hsource : ∀ i < n, sourceOf backing vpn (k + i) = backing.base + off + i) :
    ImageFilled mem frame vpn backing
      (.success,
        (clearFrame mem frame).put (frame + k)
          ((clearFrame mem frame).slice (backing.base + off) n),
        (List.range n).map (backing.base + off + ·)) := by
  have hcontent : ∀ i < pageSize, InContent backing vpn i →
      (clearFrame mem frame).put (frame + k) ((clearFrame mem frame).slice (backing.base + off) n)
        (frame + i) = clearFrame mem frame (sourceOf backing vpn i) := by
    intro i hi hc
    obtain ⟨hki, hkn⟩ := (hin i hi).mp hc
    obtain ⟨j, rfl⟩ := Nat.exists_eq_add_of_le hki
    rw [← Nat.add_assoc, Bytes.put_slice_apply _ _ _ (by omega), hsource j (by omega)]
  refine ⟨rfl, ?_, hcontent, ?_, ?_⟩
  · intro a ha
    obtain ⟨i, hi, rfl⟩ := List.mem_map.mp ha
    have := List.mem_range.mp hi
    omega
  · intro hapart i hi hc
    obtain ⟨hki, hkn⟩ := (hin i hi).mp hc
    obtain ⟨j, rfl⟩ := Nat.exists_eq_add_of_le hki
    refine (hcontent _ hi hc).trans ?_
    rw [hsource j (by omega)]
    exact clearFrame_of_notMem (hapart _ (by omega) (by omega))
  · intro i hi hc
    have hout := mt (hin i hi).mpr hc
    show Bytes.put _ _ _ _ = 0
    rw [Bytes.put_of_notMem (by rw [Bytes.length_slice]; omega)]
    exact clearFrame_frame mem frame hi

end

/-- **A backing that was accepted fills every page of its range.** Its size is a `size_t`. -/
theorem image_frame_filled (vpn count : Nat) {p : Nat} {backing : ImageBacking}
    (hlocal : isLocalVpn vpn = true)
    (hvalid : validateImageBacking vpn count backing = .success) (hsize : backing.size < wordLimit)
    (hp : vpn ≤ p) (hp' : p < vpn + count) (mem : Bytes) (pfn : Nat) :
    ImageFilled mem (physFrameToDirectmapPtr pfn) p backing
      (fillImageBackedFrame mem pfn p backing) := by
  obtain ⟨hfits, hsource, hbased, habove, hbelow⟩ := fits_of_validate hlocal hvalid
  have hpage : (p + 1) * pageSize ≤ (vpn + count) * pageSize := Nat.mul_le_mul_right _ hp'
  have hfirst : vpn * pageSize ≤ p * pageSize := Nat.mul_le_mul_right _ hp
  rw [Nat.add_mul, Nat.one_mul] at hpage
  unfold fillImageBackedFrame
  dsimp only
  by_cases hcontent : backing.contentSize = 0
  · rw [if_pos hcontent]
    exact .cleared fun i hi hin => by unfold InContent at hin; omega
  have hend := hbelow hcontent
  rw [if_neg hcontent, if_neg (hbased hcontent), if_neg (by omega), if_neg (by omega),
    if_neg (by omega), pageToAddr_of_lt (by omega),
    Nat.mod_eq_of_lt (a := p * pageSize + pageSize) (by omega),
    Nat.mod_eq_of_lt (a := backing.contentAddr + backing.contentSize) (by omega)]
  by_cases hover : p * pageSize + pageSize ≤ backing.contentAddr ∨
      backing.contentAddr + backing.contentSize ≤ p * pageSize
  · rw [if_pos hover]
    exact .cleared fun i hi hin => by unfold InContent at hin; omega
  rw [if_neg hover]
  obtain ⟨start, hstart⟩ : ∃ start, start =
      if p * pageSize > backing.contentAddr then p * pageSize else backing.contentAddr := ⟨_, rfl⟩
  obtain ⟨stop, hstop⟩ : ∃ stop, stop =
      if p * pageSize + pageSize < backing.contentAddr + backing.contentSize then
        p * pageSize + pageSize else backing.contentAddr + backing.contentSize := ⟨_, rfl⟩
  rw [← hstart, ← hstop]
  have hstart' : p * pageSize ≤ start ∧ backing.contentAddr ≤ start ∧
      (start = p * pageSize ∨ start = backing.contentAddr) := by
    split at hstart <;> omega
  have hstop' : stop ≤ p * pageSize + pageSize ∧
      stop ≤ backing.contentAddr + backing.contentSize ∧
      (stop = p * pageSize + pageSize ∨ stop = backing.contentAddr + backing.contentSize) := by
    split at hstop <;> omega
  clear hstart hstop
  rw [subWord_eq (by omega) (by omega), subWord_eq (by omega) (by omega),
    subWord_eq (by omega) (by omega), Nat.mod_eq_of_lt (by omega), if_neg (by omega),
    if_neg (by omega)]
  refine .copied (by omega) (fun i hi => ?_) (fun i hi => ?_)
  · unfold InContent
    omega
  · unfold sourceOf
    omega

/-- The second page of an image of 6000 bytes at `0x400100`. -/
theorem second_page_filled :
    ImageFilled (fun _ => 7) (physFrameToDirectmapPtr 3) 0x401 ⟨0x9000, 8000, 0x400100, 500, 6000⟩
      (fillImageBackedFrame (fun _ => 7) 3 0x401 ⟨0x9000, 8000, 0x400100, 500, 6000⟩) :=
  image_frame_filled 0x400 2 (by decide) (by decide) (by decide) (by decide) (by decide) _ _

end FoliOS.Strata.Mm
