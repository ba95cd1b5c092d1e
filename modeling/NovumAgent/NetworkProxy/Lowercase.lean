import NovumAgent.NetworkProxy.Config

/-!
# Letter case

The check compares entries of domain lists in lower case. That is no coarser than how patterns are
compiled: a pattern is put into lower case before anything looks at its letters, so patterns that
differ in case have one normal form.
-/

namespace NovumAgent.NetworkProxy

open List Text

variable {c d : Char} {t : Text}

/-! ## Characters -/

theorem toNat_asciiLowercase (c : Char) :
    (asciiLowercase c).toNat = if 65 ≤ c.toNat ∧ c.toNat ≤ 90 then c.toNat + 32 else c.toNat := by
  have hupper : 'A' ≤ c ∧ c ≤ 'Z' ↔ 65 ≤ c.toNat ∧ c.toNat ≤ 90 := Iff.rfl
  unfold asciiLowercase
  by_cases h : 65 ≤ c.toNat ∧ c.toNat ≤ 90
  · have hvalid : (c.toNat + 32).isValidChar := .inl (by omega)
    rw [if_pos (hupper.mpr h), if_pos h, Char.ofNat, dif_pos hvalid]
    rfl
  · rw [if_neg (mt hupper.mp h), if_neg h]

/-- A character that is no ASCII letter. -/
def NoLetter (d : Char) : Prop :=
  d.toNat < 65 ∨ (90 < d.toNat ∧ d.toNat < 97) ∨ 122 < d.toNat

instance (d : Char) : Decidable (NoLetter d) := inferInstanceAs (Decidable (_ ∨ _))

theorem char_eq_iff (a b : Char) : a = b ↔ a.toNat = b.toNat := Char.toNat_inj.symm

theorem asciiLowercase_eq_iff (hd : NoLetter d) : asciiLowercase c = d ↔ c = d := by
  unfold NoLetter at hd
  rw [char_eq_iff, char_eq_iff, toNat_asciiLowercase]
  split <;> omega

theorem asciiLowercase_asciiLowercase (c : Char) :
    asciiLowercase (asciiLowercase c) = asciiLowercase c := by
  rw [char_eq_iff, toNat_asciiLowercase, toNat_asciiLowercase]
  by_cases h : 65 ≤ c.toNat ∧ c.toNat ≤ 90
  · rw [if_pos h, if_neg (by omega)]
  · rw [if_neg h, if_neg h]

theorem isWhitespace_asciiLowercase (c : Char) :
    isWhitespace (asciiLowercase c) = isWhitespace c := by
  unfold isWhitespace
  rw [toNat_asciiLowercase]
  split
  next h =>
    rw [Bool.eq_iff_iff]
    simp only [Bool.or_eq_true, Bool.and_eq_true, decide_eq_true_eq, beq_iff_eq]
    omega
  next => rfl

/-! ## Texts -/

theorem toAsciiLowercase_toAsciiLowercase (t : Text) :
    toAsciiLowercase (toAsciiLowercase t) = toAsciiLowercase t := by
  unfold toAsciiLowercase
  rw [map_map]
  exact map_congr_left fun c _ => asciiLowercase_asciiLowercase c

theorem rdropWhile_toAsciiLowercase {p : Char → Bool} (hp : ∀ c, p (asciiLowercase c) = p c)
    (t : Text) : (toAsciiLowercase t).rdropWhile p = toAsciiLowercase (t.rdropWhile p) := by
  unfold toAsciiLowercase rdropWhile
  rw [← map_reverse, dropWhile_map, show p ∘ asciiLowercase = p from funext hp, map_reverse]

theorem trim_toAsciiLowercase (t : Text) : trim (toAsciiLowercase t) = toAsciiLowercase (trim t) := by
  have hstart : trimStart (toAsciiLowercase t) = toAsciiLowercase (trimStart t) := by
    unfold trimStart toAsciiLowercase
    rw [dropWhile_map,
      show isWhitespace ∘ asciiLowercase = isWhitespace from funext isWhitespace_asciiLowercase]
  rw [trim, hstart, trimEnd, rdropWhile_toAsciiLowercase isWhitespace_asciiLowercase]
  rfl

theorem mem_toAsciiLowercase (hd : NoLetter d) : d ∈ toAsciiLowercase t ↔ d ∈ t := by
  simp only [toAsciiLowercase, mem_map, asciiLowercase_eq_iff hd, exists_eq_right]

theorem takeWhile_toAsciiLowercase (hd : NoLetter d) (t : Text) :
    (toAsciiLowercase t).takeWhile (· ≠ d) = toAsciiLowercase (t.takeWhile (· ≠ d)) := by
  unfold toAsciiLowercase
  rw [takeWhile_map]
  refine congrArg (map _) (congrArg (takeWhile · t) (funext fun c => ?_))
  simp only [Function.comp_apply, ne_eq, asciiLowercase_eq_iff hd]

theorem count_toAsciiLowercase (hd : NoLetter d) (t : Text) :
    (toAsciiLowercase t).count d = t.count d := by
  unfold toAsciiLowercase count
  rw [countP_map]
  refine congrArg (countP · t) (funext fun c => ?_)
  rw [Function.comp_apply, Bool.eq_iff_iff, beq_iff_eq, beq_iff_eq, asciiLowercase_eq_iff hd]

theorem trimEndDots_eq_self_iff : trimEndDots t = t ↔ t.getLast? ≠ some '.' := by
  rw [trimEndDots, rdropWhile_eq_self_iff]
  cases t using reverseRecOn with
  | nil => simp
  | append_singleton front c => simp

theorem trim_of_not_blank (h : ∀ c ∈ t, isWhitespace c = false) : trim t = t := by
  have hstart : trimStart t = t := dropWhile_eq_self_iff.mpr fun hpos => by
    simp [h _ (getElem_mem hpos)]
  rw [trim, hstart, trimEnd, rdropWhile_eq_self_iff]
  intro hne
  simp [h _ (getLast_mem hne)]

/-! ## Normal forms -/

variable (crates : Crates)

end NovumAgent.NetworkProxy
