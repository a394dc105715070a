import Mathlib.Data.List.Basic
import Mathlib.Data.Nat.Bitwise

/-!
# Strata — UTF conversions (`strata/utils/utf.c`)

`StUtf_Utf8ToUtf32` turns an ill-formed sequence into the replacement character and goes on one
byte later; `StUtf_Utf32ToUtf8` stops at the first character that does not fit. Characters are
`Nat`s, as `St_Utf32Char` admits any 32-bit number.

The standard is `String.utf8EncodeChar`:

* `utf32ToUtf8_fits` — with enough room, characters are encoded as the standard says.
* `utf8ToUtf32_encode` — encoded characters are read back.
* `utf_roundtrip` — the two conversions and `StUtf_CountUtf8Chars` agree on every byte string.
-/

namespace FoliOS.Strata.Utf

variable {k a n : Nat} {src : List UInt8} {cs : List Char}

/-! ## The conversions -/

/-- `UTF_REPLACEMENT_CODEPOINT` -/
def replacementCodepoint : Nat := 0xFFFD

/-- `UTF8_MAX_CODEPOINT` -/
def maxCodepoint : Nat := 0x10FFFF

/-- `get_seq_len` -/
def getSeqLen (c : UInt8) : Nat :=
  if c.toNat &&& 0x80 = 0x00 then 1
  else if c.toNat &&& 0xE0 = 0xC0 then 2
  else if c.toNat &&& 0xF0 = 0xE0 then 3
  else if c.toNat &&& 0xF8 = 0xF0 then 4
  else 0

/-- A continuation byte, and what it adds to the character. -/
def continues (b : UInt8) : Bool := b.toNat &&& 0xC0 == 0x80

def low (b : UInt8) : Nat := b.toNat &&& 0x3F

/-- The character of a valid sequence that starts with `c` and goes on with `src`. -/
def validSequence (c : UInt8) (src : List UInt8) : Option Nat :=
  match getSeqLen c, src with
  | 1, _ => some c.toNat
  | 2, b₁ :: _ =>
    let wc := (c.toNat &&& 0x1F) <<< 6 ||| low b₁
    if continues b₁ ∧ 0x80 ≤ wc then some wc else none
  | 3, b₁ :: b₂ :: _ =>
    let wc := (c.toNat &&& 0x0F) <<< 12 ||| low b₁ <<< 6 ||| low b₂
    if continues b₁ ∧ continues b₂ ∧ 0x800 ≤ wc ∧ ¬ (0xD800 ≤ wc ∧ wc ≤ 0xDFFF) then some wc
    else none
  | 4, b₁ :: b₂ :: b₃ :: _ =>
    let wc := (c.toNat &&& 0x07) <<< 18 ||| low b₁ <<< 12 ||| low b₂ <<< 6 ||| low b₃
    if continues b₁ ∧ continues b₂ ∧ continues b₃ ∧ 0x10000 ≤ wc ∧ wc ≤ maxCodepoint then some wc
    else none
  | _, _ => none

/-- A round of `StUtf_Utf8ToUtf32` at `c :: src`: the character, and how many bytes it took. -/
def nextChar (c : UInt8) (src : List UInt8) : Nat × Nat :=
  if src.length + 1 < getSeqLen c then (replacementCodepoint, src.length + 1)
  else match validSequence c src with
    | some wc => (wc, getSeqLen c)
    | none => (replacementCodepoint, 1)

/-- `StUtf_Utf8ToUtf32` into a buffer of `destSize` characters. -/
def utf8ToUtf32 : Nat → List UInt8 → List Nat
  | 0, _ => []
  | _ + 1, [] => []
  | destSize + 1, c :: src =>
    let (wc, used) := nextChar c src
    wc :: utf8ToUtf32 destSize (src.drop (used - 1))

/-- The bytes `StUtf_Utf32ToUtf8` writes for a character. -/
def charBytes (wc : Nat) : List UInt8 :=
  if wc < 0x80 then [UInt8.ofNat wc]
  else if wc < 0x800 then [UInt8.ofNat (0xC0 ||| wc >>> 6), UInt8.ofNat (0x80 ||| wc &&& 0x3F)]
  else if maxCodepoint < wc then [0xEF, 0xBF, 0xBD]
  else if wc < 0x10000 then
    [UInt8.ofNat (0xE0 ||| wc >>> 12), UInt8.ofNat (0x80 ||| wc >>> 6 &&& 0x3F),
      UInt8.ofNat (0x80 ||| wc &&& 0x3F)]
  else
    [UInt8.ofNat (0xF0 ||| wc >>> 18), UInt8.ofNat (0x80 ||| wc >>> 12 &&& 0x3F),
      UInt8.ofNat (0x80 ||| wc >>> 6 &&& 0x3F), UInt8.ofNat (0x80 ||| wc &&& 0x3F)]

/-- `StUtf_Utf32ToUtf8` into a buffer of `destSize` bytes. -/
def utf32ToUtf8 : Nat → List Nat → List UInt8
  | _, [] => []
  | destSize, wc :: src =>
    if destSize < (charBytes wc).length then []
    else charBytes wc ++ utf32ToUtf8 (destSize - (charBytes wc).length) src

/-- The checks of `StUtf_CountUtf8Chars` on a sequence that starts with `c` and has all its
bytes. -/
def countsAsSequence (c : UInt8) (src : List UInt8) : Bool :=
  match getSeqLen c, src with
  | 2, b₁ :: _ => !(!continues b₁ || decide ((c.toNat &&& 0x1F) <<< 6 ||| low b₁ < 0x80))
  | 3, b₁ :: b₂ :: _ =>
    if !continues b₁ || !continues b₂ then false
    else
      let wc := (c.toNat &&& 0x0F) <<< 12 ||| low b₁ <<< 6 ||| low b₂
      !(decide (wc < 0x800) || decide (0xD800 ≤ wc) && decide (wc ≤ 0xDFFF))
  | 4, b₁ :: b₂ :: b₃ :: _ =>
    if !continues b₁ || !continues b₂ || !continues b₃ then false
    else
      let wc := (c.toNat &&& 0x07) <<< 18 ||| low b₁ <<< 12 ||| low b₂ <<< 6 ||| low b₃
      !(decide (wc < 0x10000) || decide (wc > maxCodepoint))
  | _, _ => true

/-- A round of `StUtf_CountUtf8Chars` at `c :: src`: how many bytes it takes; a sequence that is cut
off ends the loop. -/
def countStep (c : UInt8) (src : List UInt8) : Nat :=
  if getSeqLen c = 0 then 1
  else if src.length + 1 < getSeqLen c then src.length + 1
  else if countsAsSequence c src then getSeqLen c else 1

/-- The loop of `StUtf_CountUtf8Chars`, for at most `fuel` characters. -/
def countLoop : Nat → List UInt8 → Nat
  | 0, _ => 0
  | _ + 1, [] => 0
  | fuel + 1, c :: src => countLoop fuel (src.drop (countStep c src - 1)) + 1

/-- `StUtf_CountUtf8Chars`; a round takes at least a byte. -/
def countUtf8Chars (src : List UInt8) : Nat := countLoop src.length src

/-- UTF-8 of a text. -/
def encode (cs : List Char) : List UInt8 := cs.flatMap String.utf8EncodeChar

@[simp] theorem encode_cons (c : Char) (cs : List Char) :
    encode (c :: cs) = String.utf8EncodeChar c ++ encode cs := List.flatMap_cons

/-! ## Encoding -/

theorem toNat_le_maxCodepoint (c : Char) : c.toNat ≤ maxCodepoint := by
  have := c.valid
  unfold Char.toNat maxCodepoint
  omega

theorem or_eq_add {x : Nat} (i : Nat) (hx : x < 2 ^ i) : 2 ^ i * k ||| x = x + 2 ^ i * k := by
  rw [← Nat.two_pow_add_eq_or_of_lt hx, Nat.add_comm]

theorem charBytes_eq (c : Char) : charBytes c.toNat = String.utf8EncodeChar c := by
  have hmax := toNat_le_maxCodepoint c
  unfold charBytes String.utf8EncodeChar
  unfold maxCodepoint at hmax ⊢
  rw [show c.val.toNat = c.toNat from rfl]
  generalize c.toNat = v at *
  have hlow : ∀ n, 0x80 ||| n &&& 0x3F = n % 64 + 128 := fun n => by
    rw [show n &&& 0x3F = n % 2 ^ 6 from Nat.and_two_pow_sub_one_eq_mod n 6]
    exact or_eq_add (k := 2) 6 (Nat.mod_lt _ (by decide))
  simp only [hlow, Nat.shiftRight_eq_div_pow, Nat.reducePow]
  by_cases h1 : v < 0x80
  · have h1' : v ≤ 127 := by omega
    rw [if_pos h1, if_pos h1']
  · have h1' : ¬ v ≤ 127 := by omega
    rw [if_neg h1, if_neg h1']
    by_cases h2 : v < 0x800
    · have h2' : v ≤ 2047 := by omega
      rw [if_pos h2, if_pos h2', show 0xC0 ||| v / 64 = v / 64 + 0xC0 from
        or_eq_add (k := 6) 5 (by omega), Nat.mod_eq_of_lt (show v / 64 < 32 by omega)]
    · have h2' : ¬ v ≤ 2047 := by omega
      have hmax' : ¬ 0x10FFFF < v := by omega
      rw [if_neg h2, if_neg h2', if_neg hmax']
      by_cases h3 : v < 0x10000
      · have h3' : v ≤ 65535 := by omega
        rw [if_pos h3, if_pos h3', show 0xE0 ||| v / 4096 = v / 4096 + 0xE0 from
          or_eq_add (k := 14) 4 (by omega), Nat.mod_eq_of_lt (show v / 4096 < 16 by omega)]
      · have h3' : ¬ v ≤ 65535 := by omega
        rw [if_neg h3, if_neg h3', show 0xF0 ||| v / 262144 = v / 262144 + 0xF0 from
          or_eq_add (k := 30) 3 (by omega), Nat.mod_eq_of_lt (show v / 262144 < 8 by omega)]

theorem length_charBytes (wc : Nat) : 1 ≤ (charBytes wc).length ∧ (charBytes wc).length ≤ 4 := by
  unfold charBytes
  split_ifs <;> simp

/-- With room for all bytes nothing is cut off. -/
theorem utf32ToUtf8_fits (cs : List Char) : ∀ {destSize : Nat}, (encode cs).length ≤ destSize →
    utf32ToUtf8 destSize (cs.map Char.toNat) = encode cs := by
  induction cs with
  | nil => exact fun _ => rfl
  | cons c cs ih =>
    intro destSize h
    rw [encode_cons, List.length_append, ← charBytes_eq] at h
    rw [List.map_cons, utf32ToUtf8, if_neg (by omega), ih (by omega), charBytes_eq, encode_cons]

theorem length_le_encode (cs : List Char) : cs.length ≤ (encode cs).length := by
  induction cs with
  | nil => exact le_rfl
  | cons c cs ih =>
    have := length_charBytes c.toNat
    rw [charBytes_eq] at this
    rw [encode_cons, List.length_append, List.length_cons]
    omega

/-! ## Decoding -/

theorem lead_one : ∀ x < 128, getSeqLen (UInt8.ofNat x) = 1 ∧ (UInt8.ofNat x).toNat = x := by
  decide +kernel

theorem lead_two : ∀ x < 32, getSeqLen (UInt8.ofNat (x + 192)) = 2 ∧
    (UInt8.ofNat (x + 192)).toNat &&& 0x1F = x := by
  decide +kernel

theorem lead_three : ∀ x < 16, getSeqLen (UInt8.ofNat (x + 224)) = 3 ∧
    (UInt8.ofNat (x + 224)).toNat &&& 0x0F = x := by
  decide +kernel

theorem lead_four : ∀ x < 8, getSeqLen (UInt8.ofNat (x + 240)) = 4 ∧
    (UInt8.ofNat (x + 240)).toNat &&& 0x07 = x := by
  decide +kernel

theorem continuation : ∀ x < 64, continues (UInt8.ofNat (x + 128)) = true ∧
    low (UInt8.ofNat (x + 128)) = x := by
  decide +kernel

theorem shiftLeft_or {b : Nat} (i : Nat) (hb : b < 2 ^ i) : a <<< i ||| b = a * 2 ^ i + b := by
  rw [← Nat.shiftLeft_add_eq_or_of_lt hb, Nat.shiftLeft_eq]

/-- A character is read back from its bytes, whatever follows them. -/
theorem nextChar_encode (c : Char) (rest : List UInt8) : ∃ b bs,
    String.utf8EncodeChar c = b :: bs ∧ nextChar b (bs ++ rest) = (c.toNat, bs.length + 1) := by
  have hvalid := c.valid
  unfold UInt32.isValidChar Nat.isValidChar at hvalid
  unfold String.utf8EncodeChar nextChar validSequence
  rw [show c.val.toNat = c.toNat from rfl] at *
  generalize c.toNat = v at *
  obtain ⟨hc0, hlow0⟩ := continuation (v % 64) (Nat.mod_lt _ (by decide))
  obtain ⟨hc1, hlow1⟩ := continuation (v / 64 % 64) (Nat.mod_lt _ (by decide))
  by_cases h1 : v ≤ 127
  · obtain ⟨hlen, hval⟩ := lead_one v (by omega)
    refine ⟨_, [], if_pos h1, ?_⟩
    simp [hlen, hval]
  · by_cases h2 : v ≤ 2047
    · obtain ⟨hlen, hval⟩ := lead_two (v / 64 % 32) (Nat.mod_lt _ (by decide))
      refine ⟨_, [_], (if_neg h1).trans (if_pos h2), ?_⟩
      have hwc : (v / 64 % 32) <<< 6 ||| v % 64 = v := by
        rw [shiftLeft_or 6 (show v % 64 < 2 ^ 6 by omega)]
        omega
      simp only [hlen, hval, hc0, hlow0, hwc, List.cons_append, List.nil_append, List.length_cons,
        List.length_nil]
      rw [if_neg (by omega), if_pos ⟨trivial, by omega⟩]
    · by_cases h3 : v ≤ 65535
      · obtain ⟨hlen, hval⟩ := lead_three (v / 4096 % 16) (Nat.mod_lt _ (by decide))
        refine ⟨_, [_, _], (if_neg h1).trans ((if_neg h2).trans (if_pos h3)), ?_⟩
        have hwc : (v / 4096 % 16) <<< 12 ||| (v / 64 % 64) <<< 6 ||| v % 64 = v := by
          rw [Nat.or_assoc, shiftLeft_or 6 (show v % 64 < 2 ^ 6 by omega),
            shiftLeft_or 12 (by omega)]
          omega
        simp only [hlen, hval, hc0, hlow0, hc1, hlow1, hwc, List.cons_append, List.nil_append,
          List.length_cons, List.length_nil]
        rw [if_neg (by omega), if_pos ⟨trivial, trivial, by omega, by omega⟩]
      · obtain ⟨hlen, hval⟩ := lead_four (v / 262144 % 8) (Nat.mod_lt _ (by decide))
        obtain ⟨hc2, hlow2⟩ := continuation (v / 4096 % 64) (Nat.mod_lt _ (by decide))
        refine ⟨_, [_, _, _], (if_neg h1).trans ((if_neg h2).trans (if_neg h3)), ?_⟩
        have hwc : (v / 262144 % 8) <<< 18 ||| (v / 4096 % 64) <<< 12 ||| (v / 64 % 64) <<< 6 |||
            v % 64 = v := by
          rw [Nat.or_assoc, Nat.or_assoc, shiftLeft_or 6 (show v % 64 < 2 ^ 6 by omega),
            shiftLeft_or 12 (by omega), shiftLeft_or 18 (by omega)]
          omega
        simp only [hlen, hval, hc0, hlow0, hc1, hlow1, hc2, hlow2, hwc, maxCodepoint,
          List.cons_append, List.nil_append, List.length_cons, List.length_nil]
        rw [if_neg (by omega), if_pos ⟨trivial, trivial, trivial, by omega, by omega⟩]

/-- **Decoding undoes encoding.** -/
theorem utf8ToUtf32_encode (cs : List Char) {destSize : Nat} (h : cs.length ≤ destSize) :
    utf8ToUtf32 destSize (encode cs) = cs.map Char.toNat := by
  induction cs generalizing destSize with
  | nil => cases destSize <;> rfl
  | cons c cs ih =>
    rw [List.length_cons] at h
    obtain ⟨destSize, rfl⟩ : ∃ n, destSize = n + 1 := ⟨destSize - 1, by omega⟩
    obtain ⟨b, bs, hbytes, hnext⟩ := nextChar_encode c (encode cs)
    rw [encode_cons, hbytes, List.cons_append, utf8ToUtf32, hnext]
    dsimp only
    rw [Nat.add_sub_cancel, List.drop_left, ih (by omega), List.map_cons]

/-! ## Any byte string -/

theorem getSeqLen_le (c : UInt8) : getSeqLen c ≤ 4 := by
  unfold getSeqLen
  split_ifs <;> omega

theorem toNat_lt_of_getSeqLen_one (c : UInt8) (h : getSeqLen c = 1) : c.toNat < 0x80 := by
  have hall : ∀ x < 256, getSeqLen (UInt8.ofNat x) = 1 → x < 0x80 := by decide +kernel
  have hc := hall c.toNat c.toNat_lt
  rw [UInt8.ofNat_toNat] at hc
  exact hc h

/-- The two validators take the same sequences. -/
theorem countsAsSequence_iff (c : UInt8) (src : List UInt8) (hpos : getSeqLen c ≠ 0)
    (hlen : getSeqLen c ≤ src.length + 1) :
    countsAsSequence c src = (validSequence c src).isSome := by
  unfold countsAsSequence validSequence
  have hle := getSeqLen_le c
  obtain h | h | h | h : getSeqLen c = 1 ∨ getSeqLen c = 2 ∨ getSeqLen c = 3 ∨ getSeqLen c = 4 := by
    omega
  · rw [h]
    rfl
  · obtain ⟨b1, rest, rfl⟩ := List.exists_cons_of_length_pos (show 0 < src.length by omega)
    grind
  · obtain ⟨b1, rest, rfl⟩ := List.exists_cons_of_length_pos (show 0 < src.length by omega)
    rw [List.length_cons] at hlen
    obtain ⟨b2, rest, rfl⟩ := List.exists_cons_of_length_pos (show 0 < rest.length by omega)
    grind
  · obtain ⟨b1, rest, rfl⟩ := List.exists_cons_of_length_pos (show 0 < src.length by omega)
    rw [List.length_cons] at hlen
    obtain ⟨b2, rest, rfl⟩ := List.exists_cons_of_length_pos (show 0 < rest.length by omega)
    rw [List.length_cons] at hlen
    obtain ⟨b3, rest, rfl⟩ := List.exists_cons_of_length_pos (show 0 < rest.length by omega)
    grind

/-- A round of the count takes as many bytes as a round of the conversion. -/
theorem countStep_eq (c : UInt8) (src : List UInt8) : countStep c src = (nextChar c src).2 := by
  unfold countStep nextChar
  by_cases hzero : getSeqLen c = 0
  · have hnone : validSequence c src = none := by
      unfold validSequence
      rw [hzero]
      cases src <;> rfl
    rw [if_pos hzero, if_neg (by omega), hnone]
  · rw [if_neg hzero]
    split
    next => rfl
    next hlen =>
      rw [countsAsSequence_iff c src hzero (by omega)]
      cases validSequence c src <;> rfl

theorem length_utf8ToUtf32 (n : Nat) : ∀ src : List UInt8,
    (utf8ToUtf32 n src).length = countLoop n src := by
  induction n with
  | zero => exact fun _ => rfl
  | succ n ih =>
    intro src
    cases src with
    | nil => rfl
    | cons c src =>
      rw [utf8ToUtf32, countLoop, List.length_cons, ih, countStep_eq]

/-- More fuel than bytes changes nothing. -/
theorem countLoop_eq (n : Nat) : ∀ {src : List UInt8}, src.length ≤ n →
    countLoop n src = countUtf8Chars src := by
  suffices h : ∀ m n (src : List UInt8), src.length ≤ m → src.length ≤ n →
      countLoop m src = countLoop n src from fun {src} hle => h n src.length src hle le_rfl
  intro m
  induction m with
  | zero =>
    intro n src hm _
    obtain rfl := List.length_eq_zero_iff.mp (Nat.le_zero.mp hm)
    cases n <;> rfl
  | succ m ih =>
    intro n src hm hn
    cases src with
    | nil => cases n <;> rfl
    | cons c src =>
      rw [List.length_cons] at hm hn
      obtain ⟨n, rfl⟩ : ∃ k, n = k + 1 := ⟨n - 1, by omega⟩
      have hdrop : ∀ d, (src.drop d).length ≤ src.length := fun d => by
        rw [List.length_drop]
        omega
      rw [countLoop, countLoop, ih n _ ((hdrop _).trans (by omega)) ((hdrop _).trans (by omega))]

/-- A buffer that holds the whole text gets it. -/
theorem countLoop_of_le (n : Nat) : ∀ {m : Nat} {src : List UInt8}, countLoop m src ≤ n → n ≤ m →
    countLoop n src = countLoop m src := by
  induction n with
  | zero =>
    intro m src h _
    exact (Nat.le_zero.mp h).symm
  | succ n ih =>
    intro m src h hle
    obtain ⟨m, rfl⟩ : ∃ k, m = k + 1 := ⟨m - 1, by omega⟩
    cases src with
    | nil => rfl
    | cons c src =>
      rw [countLoop] at h ⊢
      have hrest := @ih m (src.drop (countStep c src - 1)) (by omega) (by omega)
      rw [countLoop, hrest]

/-- The conversion gives as many characters as are counted. -/
theorem utf8ToUtf32_length (h : countUtf8Chars src ≤ n) :
    (utf8ToUtf32 n src).length = countUtf8Chars src := by
  rw [length_utf8ToUtf32]
  by_cases hle : src.length ≤ n
  · exact countLoop_eq n hle
  · exact countLoop_of_le n h (by omega)

theorem low_lt (b : UInt8) : low b < 2 ^ 6 :=
  lt_of_le_of_lt Nat.and_le_right (by decide)

/-- Bits moved up stay below their new bound. -/
theorem shiftLeft_lt {m : Nat} (i : Nat) (ha : a < 2 ^ k) (hm : k + i ≤ m) : a <<< i < 2 ^ m := by
  rw [Nat.shiftLeft_eq]
  calc a * 2 ^ i < 2 ^ k * 2 ^ i := Nat.mul_lt_mul_of_pos_right ha (Nat.two_pow_pos i)
    _ = 2 ^ (k + i) := (pow_add 2 k i).symm
    _ ≤ 2 ^ m := Nat.pow_le_pow_right (by decide) hm

/-- A valid sequence stands for a scalar value. -/
theorem validSequence_scalar {c : UInt8} {wc : Nat} (h : validSequence c src = some wc) :
    wc.isValidChar := by
  unfold validSequence at h
  split at h
  next hlen =>
    have := toNat_lt_of_getSeqLen_one c hlen
    cases h
    omega
  next b1 _ hlen =>
    dsimp only at h
    split at h
    next hwc =>
      have hlt : (c.toNat &&& 0x1F) <<< 6 ||| low b1 < 2 ^ 11 :=
        Nat.or_lt_two_pow (shiftLeft_lt (k := 5) 6 (lt_of_le_of_lt Nat.and_le_right (by decide))
          (by decide))
          ((low_lt b1).trans (by decide))
      cases h
      omega
    next => cases h
  next b1 b2 _ hlen =>
    dsimp only at h
    split at h
    next hwc =>
      have hlt : (c.toNat &&& 0x0F) <<< 12 ||| low b1 <<< 6 ||| low b2 < 2 ^ 16 :=
        Nat.or_lt_two_pow (Nat.or_lt_two_pow
          (shiftLeft_lt (k := 4) 12 (lt_of_le_of_lt Nat.and_le_right (by decide)) (by decide))
          (shiftLeft_lt 6 (low_lt b1) (by decide))) ((low_lt b2).trans (by decide))
      cases h
      omega
    next => cases h
  next hlen =>
    dsimp only at h
    split at h
    next hwc =>
      cases h
      unfold maxCodepoint at hwc
      omega
    next => cases h
  next => cases h

theorem nextChar_scalar (c : UInt8) (src : List UInt8) : (nextChar c src).1.isValidChar := by
  have hrepl : replacementCodepoint.isValidChar := by decide
  unfold nextChar
  split
  next => exact hrepl
  next =>
    split
    next wc h => exact validSequence_scalar h
    next => exact hrepl

theorem utf8ToUtf32_scalar (n : Nat) : ∀ src :
    List UInt8, ∀ wc ∈ utf8ToUtf32 n src, wc.isValidChar := by
  induction n with
  | zero => exact fun _ _ h => absurd h List.not_mem_nil
  | succ n ih =>
    intro src wc h
    cases src with
    | nil => exact absurd h List.not_mem_nil
    | cons c src =>
      rcases List.mem_cons.mp h with rfl | h
      · exact nextChar_scalar c src
      · exact ih _ wc h

/-- The bytes of a character stand in the text. -/
theorem infix_encode {c : Char} (h : c ∈ cs) : String.utf8EncodeChar c <:+: encode cs := by
  obtain ⟨before, after, rfl⟩ := List.append_of_mem h
  refine ⟨encode before, encode after, ?_⟩
  rw [encode, encode, encode, List.flatMap_append, List.flatMap_cons, List.append_assoc]

theorem countUtf8Chars_encode (cs : List Char) : countUtf8Chars (encode cs) = cs.length := by
  have h := length_utf8ToUtf32 (encode cs).length (encode cs)
  rw [utf8ToUtf32_encode cs (length_le_encode cs), List.length_map] at h
  exact h.symm

/-- Well-formed UTF-8 gives a replacement character only where it has one. -/
theorem utf8ToUtf32_replacement (h : cs.length ≤ n)
    (hmem : replacementCodepoint ∈ utf8ToUtf32 n (encode cs)) :
    String.utf8EncodeChar '\uFFFD' <:+: encode cs := by
  rw [utf8ToUtf32_encode cs h] at hmem
  obtain ⟨c, hc, hval⟩ := List.mem_map.mp hmem
  obtain rfl : c = '\uFFFD' := Char.ext (UInt32.toNat_inj.mp hval)
  exact infix_encode hc

/-- **The conversions agree.** Encoded scalar values are read back; from any byte string come as
many characters as `StUtf_CountUtf8Chars` counts, all of them scalar values, and U+FFFD only if the
input is ill-formed or has its encoding. -/
theorem utf_roundtrip :
    (∀ (cs : List Char) (m n : Nat), (encode cs).length ≤ m → cs.length ≤ n →
      utf8ToUtf32 n (utf32ToUtf8 m (cs.map Char.toNat)) = cs.map Char.toNat) ∧
    ∀ (src : List UInt8) (n : Nat), countUtf8Chars src ≤ n →
      (utf8ToUtf32 n src).length = countUtf8Chars src ∧ (∀ wc ∈ utf8ToUtf32 n src, wc.isValidChar) ∧
      (replacementCodepoint ∈ utf8ToUtf32 n src →
        (¬ ∃ cs : List Char, src = encode cs) ∨ String.utf8EncodeChar '\uFFFD' <:+: src) := by
  refine ⟨fun cs m n hm hn => ?_, fun src n hn =>
    ⟨utf8ToUtf32_length hn, utf8ToUtf32_scalar n src, ?_⟩⟩
  · rw [utf32ToUtf8_fits cs hm, utf8ToUtf32_encode cs hn]
  · intro hmem
    by_cases hwf : ∃ cs : List Char, src = encode cs
    · obtain ⟨cs, rfl⟩ := hwf
      rw [countUtf8Chars_encode] at hn
      exact Or.inr (utf8ToUtf32_replacement hn hmem)
    · exact Or.inl hwf

/-- Two characters of two and three bytes, and a byte string with a sequence that is cut off. -/
theorem utf_roundtrip_cut_off :
    utf8ToUtf32 2 (utf32ToUtf8 5 (['é', '€'].map Char.toNat)) = ['é', '€'].map Char.toNat ∧
      (utf8ToUtf32 2 [0x41, 0xE2, 0x82]).length = countUtf8Chars [0x41, 0xE2, 0x82] :=
  ⟨utf_roundtrip.1 ['é', '€'] 5 2 (by decide) (by decide),
    (utf_roundtrip.2 [0x41, 0xE2, 0x82] 2 (by decide)).1⟩

end FoliOS.Strata.Utf
