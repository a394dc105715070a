import FoliOS.Vellum.BootInfo.Layout

/-!
# Vellum — the boot information table as the kernel reads it

`makeBootInfoTable_made` collects what is known of a table that was made: where its entries
are and what filled them. `Made.wellFormed` is the view of the kernel: the walk from the header
finds every entry once and ends where the header says, arrays fit their entries, and string
offsets lead to the strings. It is left open here whether an entry was written past its end.
-/

namespace FoliOS.Vellum.BootInfo

open Lib Mm
open Strata (align alignDiv)

variable {argv : List (List UInt8)} {off cursor vpn : Nat} {b b' : Buf} {req : Request} {sz : Sizes}
  {es : List Entry} {P : Nat → Prop} {fw : Firmware} {hw : HwModeInfo} {c : Counts} {s : State}
  {S : Strings} {e : Entry}

/-! ## A table that was made -/

/-- The part of the string table an entry writes. -/
def stringsOf (argv : List (List UInt8)) : Strings
  | .commandArgs => Span 16 (16 + strtabSize argv)
  | .loaderInfo => Span (16 + strtabSize argv) (37 + strtabSize argv)
  | _ => fun _ => False

/-- A count, and the loop over strings after it. -/
theorem countedArgs_spec {n : Nat} {b1 : Buf} (hstr : 16 + cursor + strtabSize argv ≤ off)
    (hlt : cursor + strtabSize argv < 2 ^ 32) (hput : b.put off (le 4 n) = .ok b1)
    (hargs : fillArgs (off + 4) argv 0 cursor b1 = .ok b') :
    Writes b b' (fun a => Span off (off + (4 + 4 * argv.length)) a ∨
        Span (16 + cursor) (16 + cursor + strtabSize argv) a) ∧
      b'.bytes.Holds off (le 4 n) ∧ ArgsHold b'.bytes (off + 4) argv 0 cursor := by
  obtain ⟨hw1, hh1, -⟩ := Buf.put_writes hput
  rw [length_le] at hw1
  obtain ⟨hw, hh⟩ := fillArgs_spec argv (by omega) hlt hargs
  refine ⟨(hw1.mono fun a ha => .inl ⟨ha.1, lt_of_lt_of_le ha.2 (by omega)⟩).trans
    (hw.mono fun a ha => ?_), hw.holds hh1 fun a ha hp => ?_, hh⟩
  · rcases ha with ha | ha
    · exact .inr ha
    · exact .inl ⟨le_trans (by omega) ha.1, lt_of_lt_of_le ha.2 (by omega)⟩
  · rw [length_le] at ha
    obtain ⟨hlo, hhi⟩ := ha
    rcases hp with ⟨-, hp⟩ | ⟨hp, -⟩ <;> omega

theorem strtabSize_loader : strtabSize [loaderName, loaderVersion, loaderAuthor] = 21 := rfl

theorem fillCommandArgs_spec (hstr : 16 + strtabSize argv ≤ off) (hlt : strtabSize argv < 2 ^ 32)
    (h : fillCommandArgs argv.length argv off b = .ok b') :
    Writes b b' (fun a => Span off (off + (4 + 4 * argv.length)) a ∨
        stringsOf argv .commandArgs a) ∧
      b'.bytes.Holds off (le 4 argv.length) ∧ ArgsHold b'.bytes (off + 4) argv 0 0 := by
  obtain ⟨b1, hput, hargs⟩ := bind_eq_ok.mp h
  exact countedArgs_spec (by omega) (by omega) hput hargs

theorem fillLoaderInfo_spec (hstr : 37 + strtabSize argv ≤ off)
    (hlt : strtabSize argv + 21 < 2 ^ 32) (h : fillLoaderInfo (strtabSize argv) off b = .ok b') :
    Writes b b' (fun a => Span off (off + 16) a ∨ stringsOf argv .loaderInfo a) ∧
      b'.bytes.Holds off (le 4 0) ∧
      ArgsHold b'.bytes (off + 4) [loaderName, loaderVersion, loaderAuthor] 0
        (strtabSize argv) := by
  obtain ⟨b1, hput, hargs⟩ := bind_eq_ok.mp h
  rw [Nat.mod_eq_of_lt (by omega)] at hargs
  obtain ⟨hw, hh⟩ := countedArgs_spec (by rw [strtabSize_loader]; omega)
    (by rw [strtabSize_loader]; omega) hput hargs
  rw [strtabSize_loader] at hw
  refine ⟨hw.mono fun a ha => ha.imp_right fun hs => ⟨hs.1, ?_⟩, hh⟩
  have := hs.2
  omega

theorem stringsOf_lt (h : Plain req sz es) (type : EntryType) (a : Nat)
    (ha : stringsOf req.kernelArgv type a) : a < headerSize req.kernelArgv := by
  have := h.header
  cases type with
  | commandArgs => have := ha.2; omega
  | loaderInfo => have := ha.2; omega
  | _ => exact ha.elim

theorem Writes.fromOr {len : Nat} (h : Writes b b' fun a => Span off (off + len) a ∨ P a) :
    Writes b b' fun a => From off a ∨ P a :=
  h.mono fun _ ha => ha.imp_left And.left

/-- Every entry of the table writes where it may. -/
theorem tableEntries_fills
    (h : Plain req sz (tableEntries fw hw req req.kernelArgv c s vpn sz.pages)) :
    ∀ e ∈ tableEntries fw hw req req.kernelArgv c s vpn sz.pages,
      Fills (stringsOf req.kernelArgv) (headerSize req.kernelArgv) e := by
  intro e he
  have hheader := h.header
  have hstrtab := h.strtab
  refine ⟨by rw [entrySize_eq _ (h.payload e he)]; omega, fun {off b b'} hlo hfill => ?_⟩
  simp only [tableEntries, List.mem_cons, List.not_mem_nil, or_false] at he
  rcases he with rfl | rfl | rfl | rfl | rfl | rfl | rfl | rfl
  · exact (fillCommandArgs_spec (by omega) (by omega) hfill).1.fromOr
  · exact (fillLoaderInfo_spec (by omega) (by omega) hfill).1.fromOr
  · exact (fillMemoryMap_writes hfill).mono fun _ ha => .inl ha.1
  · exact (fillAcpiRsdp_writes hfill).mono fun _ ha => .inl ha.1
  · exact (fillFramebuffer_writes hfill).mono fun _ ha => .inl ha.1
  · obtain ⟨b1, hput, hw⟩ := fillUnavailableFrames_writes hfill
    exact (Buf.put_trans_from hput hw).mono fun _ => .inl
  · exact (Buf.put_from hfill le_rfl).mono fun _ => .inl
  · obtain ⟨b1, hput, hw⟩ := fillRamdisk_writes hfill
    exact (Buf.put_trans_from hput hw).mono fun _ => .inl

/-- What is known of a table that was made. -/
structure Made (fw : Firmware) (req : Request) (s : State) (t : Table) (hw : HwModeInfo)
    (c : Counts) (sz : Sizes) : Prop where
  counts  : countAll fw req s = .ok c
  sizes   : tableSize req c = .ok sz
  alloc   : allocateTable s sz.pages = .ok (t.mm, t.vpn)
  pages   : t.pages = sz.pages
  plain   : Plain req sz (tableEntries fw hw req req.kernelArgv c t.mm t.vpn sz.pages)
  header  : t.mem.bytes.Holds 0 (tableHeader (headerSize req.kernelArgv) 8 sz.table)
  emitted : ∃ b, (∀ a, 16 ≤ a → b.bytes a = 0) ∧ b.top ≤ 16 ∧ emit
    (tableEntries fw hw req req.kernelArgv c t.mm t.vpn sz.pages) (headerSize req.kernelArgv) b =
      .ok (t.mem, t.ends)
  entries : Emitted (stringsOf req.kernelArgv) t.mem
    (tableEntries fw hw req req.kernelArgv c t.mm t.vpn sz.pages) (headerSize req.kernelArgv)

/-- Where the payload of the entry at `off` starts. -/
def payloadAt (m : Bytes) (off : Nat) : Nat := off + m.word 2 (off + 6)

/-- How long the payload at `off` is by the counts in it. -/
def payloadLength (m : Bytes) (off : Nat) : EntryType → Nat
  | .commandArgs => 4 + 4 * m.word 4 off
  | .loaderInfo => 16 + 4 * m.word 4 off
  | .memoryMap => 4 + 24 * m.word 4 off
  | .acpiRsdp => 8
  | .framebuffer => 30
  | .unavailableFrames => 4 + 16 * m.word 4 off
  | .pagetableVpn => 8
  | .ramdisk => 16 + 16 * m.word 4 (off + 8)

/-- The string `a` is at the offset `o` of the string table. -/
structure StringAt (m : Bytes) (o : Nat) (a : List UInt8) : Prop where
  holds  : m.Holds (16 + o) (a ++ [0])
  ends   : (0 : UInt8) ∉ a
  inside : 16 + o + (a.length + 1) ≤ m.word 4 4

/-- The order of the entries. -/
def entryTypes : List EntryType :=
  [.commandArgs, .loaderInfo, .memoryMap, .acpiRsdp, .framebuffer, .unavailableFrames,
    .pagetableVpn, .ramdisk]

/-- No entry was written past its end. -/
def Confined (t : Table) : Prop :=
  List.Forall₂ (fun x stop => stop ≤ x.2 + t.mem.bytes.word 4 (x.2 + 8)) (walkTable t.mem.bytes).1
    t.ends

instance (t : Table) : Decidable (Confined t) := inferInstanceAs (Decidable (List.Forall₂ ..))

/-- What the kernel relies on. -/
structure WellFormed (req : Request) (t : Table) : Prop where
  types  : (walkTable t.mem.bytes).1.map Prod.fst = entryTypes.map EntryType.code
  stop   : (walkTable t.mem.bytes).2 = t.mem.bytes.word 4 12
  pages  : t.mem.bytes.word 4 12 ≤ t.pages * 4096
  inside : ∀ x ∈ (walkTable t.mem.bytes).1, x.2 + t.mem.bytes.word 4 (x.2 + 8) ≤
      t.mem.bytes.word 4 12
  fits   : ∀ x ∈ (walkTable t.mem.bytes).1, ∀ type : EntryType, type.code = x.1 →
    payloadAt t.mem.bytes x.2 + payloadLength t.mem.bytes (payloadAt t.mem.bytes x.2) type ≤
      x.2 + t.mem.bytes.word 4 (x.2 + 8)
  args   : ∀ off, (EntryType.commandArgs.code, off) ∈ (walkTable t.mem.bytes).1 →
    t.mem.bytes.word 4 (payloadAt t.mem.bytes off) = req.kernelArgv.length ∧
      ∀ k (h : k < req.kernelArgv.length), StringAt t.mem.bytes
        (t.mem.bytes.word 4 (payloadAt t.mem.bytes off + 4 + 4 * k)) req.kernelArgv[k]
  loader : ∀ off, (EntryType.loaderInfo.code, off) ∈ (walkTable t.mem.bytes).1 →
    StringAt t.mem.bytes (t.mem.bytes.word 4 (payloadAt t.mem.bytes off + 4)) loaderName ∧
      StringAt t.mem.bytes (t.mem.bytes.word 4 (payloadAt t.mem.bytes off + 8)) loaderVersion ∧
      StringAt t.mem.bytes (t.mem.bytes.word 4 (payloadAt t.mem.bytes off + 12)) loaderAuthor
  own    : Confined t

theorem EntryType.code_injective {x y : EntryType} (h : x.code = y.code) : x = y := by
  revert h
  cases x <;> cases y <;> decide

/-- What the walk visits is an entry, with what stands behind it. -/
theorem Emitted.visited :
    ∀ {off : Nat}, Emitted S b es off → ∀ x ∈ (BootInfo.walk b.bytes es.length off).1,
      ∃ e es', e :: es' <:+ es ∧ x.1 = e.type.code ∧ off ≤ x.2 ∧ Emitted S b (e :: es') x.2 ∧
        x.2 + sizesOf (e :: es') = off + sizesOf es := by
  induction es with
  | nil => exact fun _ _ h => nomatch h
  | cons e es ih =>
    intro off hem x hx
    obtain ⟨hh, -, hrest⟩ := id hem
    obtain ⟨htype, -, hsize⟩ := entryHeader_words hh
    rw [List.length_cons, BootInfo.walk] at hx
    rw [hsize, htype] at hx
    rcases List.mem_cons.mp hx with rfl | hx
    · exact ⟨e, es, List.suffix_refl _, rfl, le_rfl, hem, rfl⟩
    · obtain ⟨e', es', hsuf, hcode, hle, hem', hsum⟩ := ih hrest x hx
      refine ⟨e', es', hsuf.trans (List.suffix_cons _ _), hcode, by omega, hem', ?_⟩
      rw [hsum, sizesOf_cons]
      omega

theorem Emitted.walk_cons (h : Emitted S b (e :: es) off) :
    (BootInfo.walk b.bytes (e :: es).length off).1 =
      (e.type.code, off) :: (BootInfo.walk b.bytes es.length (off + entrySize e.payload)).1 := by
  obtain ⟨htype, -, hsize⟩ := entryHeader_words h.1
  rw [List.length_cons, BootInfo.walk]
  rw [hsize, htype]

/-- A type that only the first entry has is only found there. -/
theorem Emitted.visited_head {o : Nat} (h : Emitted S b (e :: es) off)
    (hx : (e.type.code, o) ∈ (BootInfo.walk b.bytes (e :: es).length off).1)
    (hnot : e.type.code ∉ es.map (·.type.code)) : o = off := by
  rw [h.walk_cons] at hx
  rcases List.mem_cons.mp hx with hx | hx
  · exact (Prod.mk.inj hx).2
  · refine absurd ?_ hnot
    rw [← h.2.2.walk.1]
    exact List.mem_map_of_mem hx

section Payloads

variable {b b' : Buf} {off : Nat}

theorem fillMemoryMap_count {count : Nat} (h : fillMemoryMap fw count off b = .ok b') :
    b'.bytes.Holds off (le 4 count) := by
  obtain ⟨b1, hput, h⟩ := bind_eq_ok.mp h
  refine (fillMemoryMapLoop_writes _ h).holds_span (Buf.put_writes hput).2.1 (.inl ?_)
  rw [length_le, Nat.mul_zero, Nat.add_zero]

theorem fillUnavailableFrames_count {pages : Nat}
    (h : fillUnavailableFrames s req c vpn pages off b = .ok b') :
    b'.bytes.Holds off (le 4 (c.base + pages)) := by
  obtain ⟨b1, hput, hw⟩ := fillUnavailableFrames_writes h
  refine hw.holds (Buf.put_writes hput).2.1 fun a ha hp => ?_
  exact absurd (lt_of_lt_of_le ha.2 hp) (lt_irrefl _)

theorem fillRamdisk_count {image : RamdiskImage} (h : fillRamdisk s image off b = .ok b') :
    b'.bytes.Holds (off + 8) (le 4 image.extentCount) := by
  obtain ⟨b1, hput, hw⟩ := fillRamdisk_writes h
  have hh := (Buf.put_writes hput).2.1
  rw [Bytes.holds_append, Bytes.holds_append] at hh
  refine hw.holds hh.1.2 fun a ha hp => ?_
  rw [length_le] at ha
  have := ha.2
  unfold From at hp
  omega

/-- The length depends on the first bytes of the payload only. -/
theorem payloadLength_congr {m m' : Bytes} (h : ∀ a, off ≤ a → a < off + 12 → m' a = m a)
    (type : EntryType) : payloadLength m' off type = payloadLength m off type := by
  have h0 : m'.word 4 off = m.word 4 off := Bytes.word_congr fun a h1 h2 => h a h1 (by omega)
  have h8 : m'.word 4 (off + 8) = m.word 4 (off + 8) :=
    Bytes.word_congr fun a h1 h2 => h a (by omega) (by omega)
  cases type <;> simp only [payloadLength, h0, h8]

/-- The counts in a payload are those its size was computed from. -/
theorem fill_payloadLength
    (h : Plain req sz (tableEntries fw hw req req.kernelArgv c s vpn sz.pages))
    (he : e ∈ tableEntries fw hw req req.kernelArgv c s vpn sz.pages)
      (hlo : headerSize req.kernelArgv ≤ off)
    (hfill : e.fill off b = .ok b') : payloadLength b'.bytes off e.type = e.payload := by
  have hpayload := h.payload e he
  have hheader := h.header
  have hstrtab := h.strtab
  simp only [tableEntries, List.mem_cons, List.not_mem_nil, or_false] at he
  rcases he with rfl | rfl | rfl | rfl | rfl | rfl | rfl | rfl
  · have hcount := (fillCommandArgs_spec (by omega) (by omega) hfill).2.1
    rw [payloadLength, hcount.word_of_lt (by dsimp only at hpayload; omega)]
  · have hcount := (fillLoaderInfo_spec (by omega) (by omega) hfill).2.1
    rw [payloadLength, hcount.word_of_lt (by decide)]
  · rw [payloadLength, (fillMemoryMap_count hfill).word_of_lt (by dsimp only at hpayload; omega)]
  · rfl
  · rfl
  · rw [payloadLength,
      (fillUnavailableFrames_count hfill).word_of_lt (by dsimp only at hpayload; omega)]
  · rfl
  · rw [payloadLength, (fillRamdisk_count hfill).word_of_lt (by dsimp only at hpayload; omega)]

end Payloads

section Made

variable {fw : Firmware} {req : Request} {s : State} {t : Table} {hw : HwModeInfo} {c : Counts}
  {sz : Sizes}

section

variable (h : Made fw req s t hw c sz)
include h

/-- The fields of the header. -/
theorem Made.words :
    t.mem.bytes.word 4 4 = headerSize req.kernelArgv ∧ t.mem.bytes.word 2 8 = 8 ∧
      t.mem.bytes.word 4 12 = sz.table := by
  have hh := h.header
  unfold tableHeader at hh
  simp only [Bytes.holds_append, List.length_append, length_le, Nat.reduceAdd] at hh
  obtain ⟨⟨⟨⟨-, hheader⟩, hcount⟩, -⟩, hsize⟩ := hh
  have hsmall := h.plain.small
  have hfits := h.plain.fits
  have htable := h.plain.table
  exact ⟨hheader.word_of_lt (by omega), hcount.word_of_lt (by decide), hsize.word_of_lt (by omega)⟩

theorem Made.walkTable :
    walkTable t.mem.bytes = walk t.mem.bytes 8 (headerSize req.kernelArgv) := by
  obtain ⟨hheader, hcount, -⟩ := h.words
  rw [BootInfo.walkTable, hheader, hcount]

/-- An entry of the table, at the place the walk visits it. -/
theorem Made.visited {x : Nat × Nat} (hx : x ∈ (BootInfo.walkTable t.mem.bytes).1) :
    ∃ e es', e :: es' <:+ tableEntries fw hw req req.kernelArgv c t.mm t.vpn sz.pages ∧
    x.1 = e.type.code ∧
      headerSize req.kernelArgv ≤ x.2 ∧
      Emitted (stringsOf req.kernelArgv) t.mem (e :: es') x.2 ∧
      x.2 + sizesOf (e :: es') = sz.table := by
  rw [h.walkTable] at hx
  obtain ⟨e, es', hsuf, hcode, hle, hem, hsum⟩ := h.entries.visited x hx
  exact ⟨e, es', hsuf, hcode, hle, hem, hsum.trans h.plain.table⟩

/-- Outside of what later entries write, the finished table is what `fill` left. -/
theorem Made.payload {es' : List Entry}
    (hsuf : e :: es' <:+ tableEntries fw hw req req.kernelArgv c t.mm t.vpn sz.pages)
    (hle : headerSize req.kernelArgv ≤ off)
    (hem : Emitted (stringsOf req.kernelArgv) t.mem (e :: es') off) :
    payloadAt t.mem.bytes off = off + 16 ∧
      payloadLength t.mem.bytes (off + 16) e.type = e.payload ∧
      t.mem.bytes.word 4 (off + 8) = 16 + (e.payload + 15) / 16 * 16 := by
  obtain ⟨hheader, ⟨b1, b2, hfill, hw⟩, -⟩ := hem
  obtain ⟨-, hhdr, hsize⟩ := entryHeader_words hheader
  have he : e ∈ tableEntries fw _ req req.kernelArgv c t.mm t.vpn sz.pages :=
    hsuf.subset List.mem_cons_self
  rw [entrySize_eq _ (h.plain.payload e he)] at hsize hw
  refine ⟨by rw [payloadAt, hhdr], ?_, hsize⟩
  have hlen := fill_payloadLength h.plain he (Nat.le_add_right_of_le hle) hfill
  have hpos : 0 < e.payload := by
    simp only [tableEntries, List.mem_cons, List.not_mem_nil, or_false] at he
    rcases he with rfl | rfl | rfl | rfl | rfl | rfl | rfl | rfl <;> dsimp only <;> omega
  rw [← hlen]
  refine payloadLength_congr (fun a hlo hhi => hw.rest a ?_) _
  rintro (hp | ⟨e', -, hp⟩)
  · unfold From at hp
    omega
  · have := stringsOf_lt h.plain _ _ hp
    omega

/-- Strings that an entry has written, and no later one, are still there. -/
theorem Made.stringAt {next k : Nat} (hw : Writes b t.mem P)
    (hargs : ArgsHold b.bytes (off + 20) argv 0 cursor)
    (hP : ∀ a, ArgsSpan (off + 20) argv 0 cursor a → ¬ P a)
    (hstr : 16 + cursor + strtabSize argv ≤ headerSize req.kernelArgv)
    (hends : ∀ a ∈ argv, (0 : UInt8) ∉ a) (hnext : next = off + 20 + 4 * k) (hk : k < argv.length) :
    StringAt t.mem.bytes (t.mem.bytes.word 4 next) argv[k] := by
  have hheader := h.words.1
  have hlt : headerSize req.kernelArgv < 2 ^ 32 := by
    have := h.plain.small
    have := h.plain.fits
    have := h.plain.table
    omega
  have hargs' : ArgsHold t.mem.bytes (off + 20) argv 0 cursor :=
    hargs.congr fun a ha => hw.rest a (hP a ha)
  obtain ⟨hholds, hle⟩ := hargs'.get (by omega) hk
  rw [Nat.zero_add, ← hnext] at hholds hle
  exact ⟨hholds, hends _ (List.getElem_mem hk), by rw [hheader]; omega⟩

end

/-- Where the strings of the entries after the first are. -/
theorem strings_behind {a : Nat} (hes : EntryType.commandArgs ∉ es.map Entry.type)
    (ha : (stringsOf argv).ofEntries es a) :
    16 + strtabSize argv ≤ a ∧ EntryType.loaderInfo ∈ es.map Entry.type := by
  obtain ⟨e, he, ha⟩ := ha
  have hmem : e.type ∈ es.map Entry.type := List.mem_map_of_mem he
  cases htype : e.type <;> rw [htype] at hmem ha
  case commandArgs => exact absurd hmem hes
  case loaderInfo => exact ⟨ha.1, hmem⟩
  all_goals exact ha.elim

theorem Made.args (h : Made fw req s t hw c sz)
    (hx : (EntryType.commandArgs.code, off) ∈ (BootInfo.walkTable t.mem.bytes).1) :
    t.mem.bytes.word 4 (payloadAt t.mem.bytes off) = req.kernelArgv.length ∧
      ∀ k (h : k < req.kernelArgv.length), StringAt t.mem.bytes
        (t.mem.bytes.word 4 (payloadAt t.mem.bytes off + 4 + 4 * k)) req.kernelArgv[k] := by
  rw [h.walkTable] at hx
  obtain rfl := h.entries.visited_head hx (by simp [EntryType.code])
  obtain ⟨hat, hlen, -⟩ := h.payload (List.suffix_refl _) le_rfl h.entries
  rw [hat]
  refine ⟨?_, fun k hk => ?_⟩
  · simp only [payloadLength] at hlen
    omega
  · obtain ⟨-, ⟨b1, b2, hfill, hwrites⟩, -⟩ := h.entries
    have hheader := h.plain.header
    have hstrtab := h.plain.strtab
    obtain ⟨-, -, hargs⟩ := fillCommandArgs_spec (by omega) (by omega) hfill
    refine h.stringAt hwrites hargs (fun a ha hp => ?_) (by omega) req.strings (by omega) hk
    have hsize := entrySize_eq _ (h.plain.payload _ List.mem_cons_self)
    dsimp only at hsize hp
    rcases hp with hp | hp
    · unfold From at hp
      rcases ha with ⟨-, ha⟩ | ⟨-, ha⟩ <;> omega
    · rcases ha with ⟨-, ha⟩ | ⟨ha, -⟩
      · have := (strings_behind (by simp) hp).1
        omega
      · obtain ⟨e, -, hp⟩ := hp
        have := stringsOf_lt h.plain _ _ hp
        omega

theorem Made.loader (h : Made fw req s t hw c sz)
    (hx : (EntryType.loaderInfo.code, off) ∈ (BootInfo.walkTable t.mem.bytes).1) :
    StringAt t.mem.bytes (t.mem.bytes.word 4 (payloadAt t.mem.bytes off + 4)) loaderName ∧
      StringAt t.mem.bytes (t.mem.bytes.word 4 (payloadAt t.mem.bytes off + 8)) loaderVersion ∧
      StringAt t.mem.bytes (t.mem.bytes.word 4 (payloadAt t.mem.bytes off + 12)) loaderAuthor := by
  rw [h.walkTable] at hx
  have hentries := h.entries.2.2
  have hx' := h.entries.walk_cons ▸ hx
  rcases List.mem_cons.mp hx' with hx' | hx'
  · cases (Prod.mk.inj hx').1
  obtain rfl := hentries.visited_head hx' (by simp [EntryType.code])
  obtain ⟨hat, -, -⟩ := h.payload (List.suffix_cons _ _) (Nat.le_add_right _ _) hentries
  rw [hat]
  obtain ⟨-, ⟨b1, b2, hfill, hwrites⟩, -⟩ := hentries
  have hheader := h.plain.header
  have hstrtab := h.plain.strtab
  obtain ⟨-, -, hargs⟩ := fillLoaderInfo_spec (by omega) (by omega) hfill
  have hk : ∀ {k next} (hk : k < [loaderName, loaderVersion, loaderAuthor].length),
      next = headerSize req.kernelArgv + entrySize (4 + 4 * req.kernelArgv.length) + 20 + 4 * k →
      StringAt t.mem.bytes (t.mem.bytes.word 4 next)
        [loaderName, loaderVersion, loaderAuthor][k] := by
    intro k next hk hnext
    refine h.stringAt hwrites hargs (fun a ha hp => ?_) (by rw [strtabSize_loader]; omega)
      (by decide) hnext hk
    have hsize : entrySize 16 = 32 := entrySize_eq 16 (by omega)
    rcases hp with hp | hp
    · unfold From at hp
      dsimp only at hp
      rcases ha with ⟨-, ha⟩ | ⟨-, ha⟩
      · rw [strtabSize_loader] at ha; omega
      · simp only [List.length_cons, List.length_nil] at ha; omega
    · exact absurd (strings_behind (by simp) hp).2 (by simp)
  exact ⟨hk (k := 0) (by decide) rfl, hk (k := 1) (by decide) rfl, hk (k := 2) (by decide) rfl⟩

/-- **The table is as the kernel expects it**, if no entry was written past its end. -/
theorem Made.wellFormed (h : Made fw req s t hw c sz) (hown : Confined t) : WellFormed req t := by
  obtain ⟨-, -, hsize⟩ := h.words
  obtain ⟨htypes, hstop⟩ := h.entries.walk
  refine ⟨?_, ?_, ?_, fun x hx => ?_, fun x hx type htype => ?_, fun off => h.args,
    fun off => h.loader, hown⟩
  · rw [h.walkTable]
    exact htypes
  · rw [h.walkTable, hsize]
    exact hstop.trans h.plain.table
  · rw [hsize, h.pages]
    exact h.plain.fits
  · obtain ⟨e, es', hsuf, hcode, hle, hem, hsum⟩ := h.visited hx
    rw [(entryHeader_words hem.1).2.2, hsize, ← hsum, sizesOf_cons]
    omega
  · obtain ⟨e, es', hsuf, hcode, hle, hem, -⟩ := h.visited hx
    obtain ⟨hat, hlen, hword⟩ := h.payload hsuf hle hem
    obtain rfl : type = e.type := EntryType.code_injective (htype.trans hcode)
    rw [hat, hlen, hword]
    omega

end Made

end FoliOS.Vellum.BootInfo
