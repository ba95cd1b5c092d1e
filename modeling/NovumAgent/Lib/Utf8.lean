import Mathlib.Tactic.SplitIfs
import NovumAgent.Lib.Usize

/-!
# Texts and their UTF-8 bytes

A `str` of the source is the list of its characters; its bytes are the UTF-8 encoding of that
list. This module gives the byte positions of a text (its length, its character boundaries, its
slices) and the two directions of the encoding, the decoder being the lossy one that replaces
every maximal invalid sequence by one U+FFFD.

The one notion the rest is stated with is `takeBytes n t`: the longest prefix of whole characters
of `t` that fits in `n` bytes. A byte position is a character boundary exactly when it is the
length of such a prefix (`isCharBoundary_iff`), and rounding a position down to a boundary is the
length of the prefix that fits (`byteLen_takeBytes` and its bounds).
-/

namespace NovumAgent

open List

/-- A text: the characters of a `str`. -/
abbrev Text := List Char

instance : LawfulBEq Text := inferInstance

/-- Raw bytes: a `Vec<u8>`. -/
abbrev Bytes := List UInt8

namespace Utf8

/-! ## Byte positions -/

/-- `str::len`: the number of bytes of a text. -/
def byteLen : Text → Nat
  | [] => 0
  | c :: cs => c.utf8Size + byteLen cs

def isCharBoundary : Text → Nat → Bool
  | [], i => i == 0
  | c :: cs, i => i == 0 || (decide (c.utf8Size ≤ i) && isCharBoundary cs (i - c.utf8Size))

/-- The longest prefix of whole characters within `n` bytes. -/
def takeBytes : Nat → Text → Text
  | _, [] => []
  | n, c :: cs => if c.utf8Size ≤ n then c :: takeBytes (n - c.utf8Size) cs else []

/-- What `takeBytes` leaves. -/
def dropBytes (n : Nat) (t : Text) : Text := t.drop (takeBytes n t).length

/-- `&t[start..end]` for two character boundaries in order (the source panics elsewhere). -/
def slice (t : Text) (start stop : Nat) : Text := takeBytes (stop - start) (dropBytes start t)

@[simp] theorem byteLen_nil : byteLen [] = 0 := rfl

@[simp] theorem byteLen_cons (c : Char) (cs : Text) :
    byteLen (c :: cs) = c.utf8Size + byteLen cs := rfl

@[simp] theorem byteLen_append (s t : Text) : byteLen (s ++ t) = byteLen s + byteLen t := by
  induction s with
  | nil => simp
  | cons c cs ih => simp [ih, Nat.add_assoc]

variable {t : Text} {n : Nat} {a b : UInt8}

theorem eq_nil_of_byteLen_eq_zero (h : byteLen t = 0) : t = [] := by
  cases t with
  | nil => rfl
  | cons c cs =>
    have := c.utf8Size_pos
    simp only [byteLen_cons] at h
    omega

@[simp] theorem takeBytes_nil (n : Nat) : takeBytes n [] = [] := by
  cases n <;> rfl

/-- A text splits into what fits and what is left. -/
theorem takeBytes_append_dropBytes (n : Nat) (t : Text) : takeBytes n t ++ dropBytes n t = t := by
  unfold dropBytes
  induction t generalizing n with
  | nil => simp
  | cons c cs ih =>
    simp only [takeBytes]
    split
    · simp only [cons_append, length_cons, drop_succ_cons, ih]
    · simp

theorem byteLen_takeBytes_le (n : Nat) (t : Text) : byteLen (takeBytes n t) ≤ n := by
  induction t generalizing n with
  | nil => simp
  | cons c cs ih =>
    simp only [takeBytes]
    split
    · have := ih (n - c.utf8Size)
      simp only [byteLen_cons]
      omega
    · simp

theorem byteLen_takeBytes_le_byteLen (n : Nat) (t : Text) :
    byteLen (takeBytes n t) ≤ byteLen t := by
  have h := congrArg byteLen (takeBytes_append_dropBytes n t)
  rw [byteLen_append] at h
  omega

/-- A whole prefix that fits is taken, and the rest of the budget is spent behind it. -/
theorem takeBytes_append {s : Text} (h : byteLen s ≤ n) :
    takeBytes n (s ++ t) = s ++ takeBytes (n - byteLen s) t := by
  induction s generalizing n with
  | nil => simp
  | cons c cs ih =>
    simp only [byteLen_cons] at h
    have hc : c.utf8Size ≤ n := by omega
    have hrest : byteLen cs ≤ n - c.utf8Size := by omega
    simp only [cons_append, takeBytes, if_pos hc, ih hrest, byteLen_cons]
    rw [Nat.sub_sub]

theorem dropBytes_append {s : Text} (h : byteLen s ≤ n) :
    dropBytes n (s ++ t) = dropBytes (n - byteLen s) t := by
  have h1 := takeBytes_append_dropBytes n (s ++ t)
  rw [takeBytes_append h, append_assoc] at h1
  have h2 := append_cancel_left h1
  exact append_cancel_left (h2.trans (takeBytes_append_dropBytes _ t).symm)

/-- A budget that covers the text takes all of it. -/
theorem takeBytes_of_byteLen_le (h : byteLen t ≤ n) : takeBytes n t = t := by
  have := takeBytes_append (t := []) h
  simpa using this

@[simp] theorem takeBytes_zero (t : Text) : takeBytes 0 t = [] := by
  cases t with
  | nil => rfl
  | cons c cs =>
    have := c.utf8Size_pos
    simp only [takeBytes]
    rw [if_neg (by omega)]

@[simp] theorem dropBytes_zero (t : Text) : dropBytes 0 t = t := by
  simp [dropBytes]

/-- The character behind the prefix does not fit: the prefix is the longest. -/
theorem lt_byteLen_takeBytes_add {c : Char} {cs : Text}
    (h : dropBytes n t = c :: cs) : n < byteLen (takeBytes n t) + c.utf8Size := by
  induction t generalizing n with
  | nil => simp [dropBytes] at h
  | cons d ds ih =>
    simp only [dropBytes, takeBytes] at h ⊢
    split at h
    · next hd =>
      rw [if_pos hd]
      have := ih (n := n - d.utf8Size) (by simpa [dropBytes] using h)
      simp only [byteLen_cons]
      omega
    · next hd =>
      rw [if_neg hd]
      simp only [length_nil, drop_zero, cons.injEq] at h
      obtain ⟨rfl, _⟩ := h
      simp only [byteLen_nil]
      omega

/-- So a budget a text overflows is missed by less than a character, hence by at most three bytes. -/
theorem lt_byteLen_takeBytes_add_four (h : byteLen (takeBytes n t) < byteLen t) :
    n < byteLen (takeBytes n t) + 4 := by
  have hsum := congrArg byteLen (takeBytes_append_dropBytes n t)
  rw [byteLen_append] at hsum
  cases hd : dropBytes n t with
  | nil => simp only [hd, byteLen_nil] at hsum; omega
  | cons c cs =>
    have := lt_byteLen_takeBytes_add hd
    have := c.utf8Size_le_four
    omega

/-! ## Character boundaries -/

/-- A position is a boundary exactly when it is the length of a prefix. -/
theorem isCharBoundary_iff {i : Nat} :
    isCharBoundary t i = true ↔ ∃ p s, t = p ++ s ∧ byteLen p = i := by
  induction t generalizing i with
  | nil =>
    simp only [isCharBoundary, beq_iff_eq]
    constructor
    · rintro rfl
      exact ⟨[], [], rfl, rfl⟩
    · rintro ⟨p, s, h, rfl⟩
      rw [(append_eq_nil_iff.mp h.symm).1, byteLen_nil]
  | cons c cs ih =>
    simp only [isCharBoundary, Bool.or_eq_true, beq_iff_eq, Bool.and_eq_true, decide_eq_true_eq, ih]
    constructor
    · rintro (rfl | ⟨hc, p, s, rfl, hp⟩)
      · exact ⟨[], c :: cs, rfl, rfl⟩
      · exact ⟨c :: p, s, rfl, by simp only [byteLen_cons]; omega⟩
    · rintro ⟨p, s, h, rfl⟩
      cases p with
      | nil => exact .inl rfl
      | cons d p =>
        simp only [cons_append, cons.injEq] at h
        obtain ⟨rfl, h⟩ := h
        refine .inr ⟨by simp only [byteLen_cons]; omega, p, s, h, by simp only [byteLen_cons]; omega⟩

/-- What fits ends on a boundary. -/
theorem isCharBoundary_byteLen_takeBytes (n : Nat) (t : Text) :
    isCharBoundary t (byteLen (takeBytes n t)) = true :=
  isCharBoundary_iff.mpr ⟨_, _, (takeBytes_append_dropBytes n t).symm, rfl⟩

/-- And it ends on the last boundary the budget reaches. -/
theorem le_byteLen_takeBytes {i : Nat} (hb : isCharBoundary t i = true) (h : i ≤ n) :
    i ≤ byteLen (takeBytes n t) := by
  obtain ⟨p, s, rfl, rfl⟩ := isCharBoundary_iff.mp hb
  rw [takeBytes_append h, byteLen_append]
  exact Nat.le_add_right _ _

/-- Taking is monotone in the budget. -/
theorem byteLen_takeBytes_mono {m : Nat} (h : m ≤ n) (t : Text) :
    byteLen (takeBytes m t) ≤ byteLen (takeBytes n t) :=
  le_byteLen_takeBytes (isCharBoundary_byteLen_takeBytes m t)
    (Nat.le_trans (byteLen_takeBytes_le m t) h)

/-- Cutting a text where a prefix of it ends gives that prefix. -/
theorem takeBytes_byteLen_takeBytes (n : Nat) (t : Text) :
    takeBytes (byteLen (takeBytes n t)) t = takeBytes n t := by
  have h := takeBytes_append (t := dropBytes n t) (Nat.le_refl (byteLen (takeBytes n t)))
  rwa [takeBytes_append_dropBytes, Nat.sub_self, takeBytes_zero, append_nil] at h

theorem byteLen_takeBytes_add_byteLen_dropBytes (n : Nat) (t : Text) :
    byteLen (takeBytes n t) + byteLen (dropBytes n t) = byteLen t := by
  rw [← byteLen_append, takeBytes_append_dropBytes]

/-- Two cuts that fall on one boundary leave the same text. -/
theorem dropBytes_congr {m : Nat}
    (h : byteLen (takeBytes m t) = byteLen (takeBytes n t)) : dropBytes m t = dropBytes n t := by
  have htake : takeBytes m t = takeBytes n t := by
    rw [← takeBytes_byteLen_takeBytes m t, h, takeBytes_byteLen_takeBytes]
  unfold dropBytes
  rw [htake]

/-- Taking from what a cut left is taking from the whole, farther on. -/
theorem byteLen_takeBytes_dropBytes (m n : Nat) (t : Text) :
    byteLen (takeBytes (byteLen (takeBytes m t) + n) t) =
      byteLen (takeBytes m t) + byteLen (takeBytes n (dropBytes m t)) := by
  have h := takeBytes_append (t := dropBytes m t) (Nat.le_add_right (byteLen (takeBytes m t)) n)
  rw [takeBytes_append_dropBytes, Nat.add_sub_cancel_left] at h
  rw [h, byteLen_append]

theorem dropBytes_dropBytes (m n : Nat) (t : Text) :
    dropBytes n (dropBytes m t) = dropBytes (byteLen (takeBytes m t) + n) t := by
  have h := dropBytes_append (t := dropBytes m t) (Nat.le_add_right (byteLen (takeBytes m t)) n)
  rw [takeBytes_append_dropBytes, Nat.add_sub_cancel_left] at h
  exact h.symm

/-- A slice between the ends of two windows is the second window. -/
theorem slice_eq_takeBytes (m n : Nat) (t : Text) :
    slice t (byteLen (takeBytes m t)) (byteLen (takeBytes (byteLen (takeBytes m t) + n) t)) =
      takeBytes n (dropBytes m t) := by
  unfold slice
  rw [byteLen_takeBytes_dropBytes, Nat.add_sub_cancel_left,
    dropBytes_congr (congrArg byteLen (takeBytes_byteLen_takeBytes m t)),
    takeBytes_byteLen_takeBytes]

/-! ## The encoding -/

/-- `str::as_bytes`. -/
def encode (t : Text) : Bytes := t.flatMap String.utf8EncodeChar

@[simp] theorem length_encode (t : Text) : (encode t).length = byteLen t := by
  induction t with
  | nil => rfl
  | cons c cs ih =>
    have h : encode (c :: cs) = String.utf8EncodeChar c ++ encode cs := rfl
    rw [h, length_append, String.length_utf8EncodeChar, ih, byteLen_cons]

/-- A continuation byte. -/
def isCont (b : UInt8) : Bool := 0x80 ≤ b.toNat && b.toNat ≤ 0xBF

/-- May `b` follow the lead byte `lead` of a sequence of three or four bytes? The narrow ranges
rule out overlong forms, surrogates and values past U+10FFFF. -/
def secondOk (lead : Nat) (b : UInt8) : Bool :=
  if lead = 0xE0 then 0xA0 ≤ b.toNat && b.toNat ≤ 0xBF
  else if lead = 0xED then 0x80 ≤ b.toNat && b.toNat ≤ 0x9F
  else if lead = 0xF0 then 0x90 ≤ b.toNat && b.toNat ≤ 0xBF
  else if lead = 0xF4 then 0x80 ≤ b.toNat && b.toNat ≤ 0x8F
  else isCont b

/-- The payload of a continuation byte. -/
def contBits (b : UInt8) : Nat := b.toNat - 0x80

/-- One step of the decoder: the character at the head of the bytes, or `none` where they start
with an invalid sequence, and the bytes behind it. An invalid sequence is the longest prefix of a
valid one, or a single byte. -/
def decodeFirst : Bytes → Option (Option Char × Bytes)
  | [] => none
  | a :: rest =>
    let lead := a.toNat
    if lead < 0x80 then some (some (Char.ofNat lead), rest)
    else if 0xC2 ≤ lead ∧ lead ≤ 0xDF then
      match rest with
      | b :: rest₁ =>
        if isCont b then some (some (Char.ofNat ((lead - 0xC0) * 64 + contBits b)), rest₁)
        else some (none, rest)
      | [] => some (none, [])
    else if 0xE0 ≤ lead ∧ lead ≤ 0xEF then
      match rest with
      | b :: rest₁ =>
        if secondOk lead b then
          match rest₁ with
          | c :: rest₂ =>
            if isCont c then
              some (some (Char.ofNat ((lead - 0xE0) * 4096 + contBits b * 64 + contBits c)), rest₂)
            else some (none, rest₁)
          | [] => some (none, [])
        else some (none, rest)
      | [] => some (none, [])
    else if 0xF0 ≤ lead ∧ lead ≤ 0xF4 then
      match rest with
      | b :: rest₁ =>
        if secondOk lead b then
          match rest₁ with
          | c :: rest₂ =>
            if isCont c then
              match rest₂ with
              | d :: rest₃ =>
                if isCont d then
                  some (some (Char.ofNat ((lead - 0xF0) * 262144 + contBits b * 4096
                    + contBits c * 64 + contBits d)), rest₃)
                else some (none, rest₂)
              | [] => some (none, [])
            else some (none, rest₁)
          | [] => some (none, [])
        else some (none, rest)
      | [] => some (none, [])
    else some (none, rest)

/-- The decoder's loop; every step drops a byte, so the length of the input is fuel enough. -/
def lossyLoop : Nat → Bytes → Text
  | 0, _ => []
  | fuel + 1, bytes =>
    match decodeFirst bytes with
    | none => []
    | some (c, rest) => c.getD '\uFFFD' :: lossyLoop fuel rest

def fromUtf8Lossy (bytes : Bytes) : Text := lossyLoop bytes.length bytes

/-! ### Decoding what was encoded -/

theorem decodeFirst_one (rest : Bytes) (ha : a.toNat < 0x80) :
    decodeFirst (a :: rest) = some (some (Char.ofNat a.toNat), rest) := by
  simp only [decodeFirst, if_pos ha]

theorem decodeFirst_two (rest : Bytes) (ha : 0xC2 ≤ a.toNat ∧ a.toNat ≤ 0xDF)
    (hb : isCont b = true) : decodeFirst (a :: b :: rest) =
      some (some (Char.ofNat ((a.toNat - 0xC0) * 64 + contBits b)), rest) := by
  simp only [decodeFirst]
  rw [if_neg (by omega), if_pos ha, if_pos hb]

theorem decodeFirst_three {c : UInt8} (rest : Bytes) (ha : 0xE0 ≤ a.toNat ∧ a.toNat ≤ 0xEF)
    (hb : secondOk a.toNat b = true) (hc : isCont c = true) : decodeFirst (a :: b :: c :: rest) =
      some (some (Char.ofNat ((a.toNat - 0xE0) * 4096 + contBits b * 64 + contBits c)), rest) := by
  simp only [decodeFirst]
  rw [if_neg (by omega), if_neg (by omega), if_pos ha, if_pos hb, if_pos hc]

theorem decodeFirst_four {c d : UInt8} (rest : Bytes) (ha : 0xF0 ≤ a.toNat ∧ a.toNat ≤ 0xF4)
    (hb : secondOk a.toNat b = true) (hc : isCont c = true) (hd : isCont d = true) :
    decodeFirst (a :: b :: c :: d :: rest) = some (some (Char.ofNat ((a.toNat - 0xF0) * 262144
      + contBits b * 4096 + contBits c * 64 + contBits d)), rest) := by
  simp only [decodeFirst]
  rw [if_neg (by omega), if_neg (by omega), if_neg (by omega), if_pos ha, if_pos hb, if_pos hc,
    if_pos hd]

theorem toNat_ofNat_byte (h : n < 256) : (UInt8.ofNat n).toNat = n := by
  rw [UInt8.toNat_ofNat']
  omega

theorem isCont_ofNat (h : n < 64) : isCont (UInt8.ofNat (n + 0x80)) = true := by
  simp only [isCont, toNat_ofNat_byte (show n + 0x80 < 256 by omega), Bool.and_eq_true,
    decide_eq_true_eq]
  omega

theorem contBits_ofNat (h : n < 64) : contBits (UInt8.ofNat (n + 0x80)) = n := by
  unfold contBits
  rw [toNat_ofNat_byte (by omega)]
  exact Nat.add_sub_cancel n 0x80

/-- The bytes of a character, by the size of its code point. -/
theorem utf8EncodeChar_eq (c : Char) : String.utf8EncodeChar c =
      if c.toNat ≤ 0x7f then [UInt8.ofNat c.toNat]
      else if c.toNat ≤ 0x7ff then
        [UInt8.ofNat (c.toNat / 64 % 0x20 + 0xc0), UInt8.ofNat (c.toNat % 0x40 + 0x80)]
      else if c.toNat ≤ 0xffff then
        [UInt8.ofNat (c.toNat / 4096 % 0x10 + 0xe0), UInt8.ofNat (c.toNat / 64 % 0x40 + 0x80),
          UInt8.ofNat (c.toNat % 0x40 + 0x80)]
      else
        [UInt8.ofNat (c.toNat / 262144 % 0x08 + 0xf0), UInt8.ofNat (c.toNat / 4096 % 0x40 + 0x80),
          UInt8.ofNat (c.toNat / 64 % 0x40 + 0x80), UInt8.ofNat (c.toNat % 0x40 + 0x80)] := rfl

/-- An ASCII byte in the bytes of a character is that character. -/
theorem toNat_eq_of_mem_utf8EncodeChar {c : Char} (h : b ∈ String.utf8EncodeChar c)
    (hlt : b.toNat < 0x80) : b.toNat = c.toNat := by
  have hbyte : ∀ n, 0x80 ≤ n → n < 256 → b ≠ UInt8.ofNat n := by
    rintro n hle hn rfl
    rw [toNat_ofNat_byte hn] at hlt
    omega
  rw [utf8EncodeChar_eq] at h
  split_ifs at h with h1 h2 h3
  · rw [mem_singleton.mp h, toNat_ofNat_byte (by omega)]
  · simp only [mem_cons, not_mem_nil, or_false] at h
    rcases h with h | h <;> exact absurd h (hbyte _ (by omega) (by omega))
  · simp only [mem_cons, not_mem_nil, or_false] at h
    rcases h with h | h | h <;> exact absurd h (hbyte _ (by omega) (by omega))
  · simp only [mem_cons, not_mem_nil, or_false] at h
    rcases h with h | h | h | h <;> exact absurd h (hbyte _ (by omega) (by omega))

/-- A character's own bytes decode to it, whatever follows them. The four branches of the encoder
meet the four lead-byte ranges of the decoder; the second byte stays in its range because the
code point is a scalar value. -/
theorem decodeFirst_encodeChar (c : Char) (rest : Bytes) :
    decodeFirst (String.utf8EncodeChar c ++ rest) = some (some c, rest) := by
  have hvalid : c.toNat < 0xD800 ∨ (0xDFFF < c.toNat ∧ c.toNat < 0x110000) := by
    have h := c.valid
    simp only [UInt32.isValidChar, Nat.isValidChar] at h
    exact h
  have hof : ∀ n, n = c.toNat → Char.ofNat n = c := by
    rintro n rfl
    exact Char.ofNat_toNat c
  rw [utf8EncodeChar_eq]
  generalize c.toNat = v at hvalid hof
  split_ifs with h1 h2 h3
  · have hlead := toNat_ofNat_byte (show v < 256 by omega)
    rw [singleton_append, decodeFirst_one _ (by omega), hlead, hof v rfl]
  · have hlead := toNat_ofNat_byte (show v / 64 % 0x20 + 0xc0 < 256 by omega)
    rw [cons_append, singleton_append,
      decodeFirst_two _ (by omega) (isCont_ofNat (by omega)), hlead, contBits_ofNat (by omega),
      hof _ (by omega)]
  · have hlead := toNat_ofNat_byte (show v / 4096 % 0x10 + 0xe0 < 256 by omega)
    have hsecond : secondOk (UInt8.ofNat (v / 4096 % 0x10 + 0xe0)).toNat
        (UInt8.ofNat (v / 64 % 0x40 + 0x80)) = true := by
      rw [hlead]
      simp only [secondOk, isCont, toNat_ofNat_byte (show v / 64 % 0x40 + 0x80 < 256 by omega)]
      split_ifs <;> simp only [Bool.and_eq_true, decide_eq_true_eq] <;> omega
    rw [cons_append, cons_append, singleton_append,
      decodeFirst_three _ (by omega) hsecond (isCont_ofNat (by omega)), hlead,
      contBits_ofNat (by omega), contBits_ofNat (by omega), hof _ (by omega)]
  · have hlead := toNat_ofNat_byte (show v / 262144 % 0x08 + 0xf0 < 256 by omega)
    have hsecond : secondOk (UInt8.ofNat (v / 262144 % 0x08 + 0xf0)).toNat
        (UInt8.ofNat (v / 4096 % 0x40 + 0x80)) = true := by
      rw [hlead]
      simp only [secondOk, isCont, toNat_ofNat_byte (show v / 4096 % 0x40 + 0x80 < 256 by omega)]
      split_ifs <;> simp only [Bool.and_eq_true, decide_eq_true_eq] <;> omega
    rw [cons_append, cons_append, cons_append, singleton_append,
      decodeFirst_four _ (by omega) hsecond (isCont_ofNat (by omega)) (isCont_ofNat (by omega)),
      hlead, contBits_ofNat (by omega), contBits_ofNat (by omega), contBits_ofNat (by omega),
      hof _ (by omega)]

theorem lossyLoop_encode (t : Text) {fuel : Nat} (h : t.length ≤ fuel) :
    lossyLoop fuel (encode t) = t := by
  induction t generalizing fuel with
  | nil => cases fuel <;> rfl
  | cons c cs ih =>
    cases fuel with
    | zero => simp at h
    | succ fuel =>
      have hcons : encode (c :: cs) = String.utf8EncodeChar c ++ encode cs := rfl
      simp only [hcons, lossyLoop, decodeFirst_encodeChar, Option.getD_some]
      rw [ih (by simpa using h)]

theorem length_le_byteLen (t : Text) : t.length ≤ byteLen t := by
  induction t with
  | nil => simp
  | cons c cs ih =>
    have := c.utf8Size_pos
    simp only [length_cons, byteLen_cons]
    omega

/-- Reading a text's own bytes back gives the text: the replacement never acts on valid UTF-8. -/
theorem fromUtf8Lossy_encode (t : Text) : fromUtf8Lossy (encode t) = t := by
  unfold fromUtf8Lossy
  rw [length_encode]
  exact lossyLoop_encode t (length_le_byteLen t)

end Utf8

end NovumAgent
