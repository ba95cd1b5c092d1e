import Mathlib.Algebra.BigOperators.Group.Finset.Basic
import Mathlib.Order.Interval.Finset.Nat
import NovumAgent.Lib.Table
import NovumAgent.Lib.Utf8

/-!
# Ciphertexts in the order of their numbers

The relay below the channel may repeat and reorder frames, and a Noise session decrypts in order only. The
receiver hands each frame on when its number is the next one, keeps the frames that came early in a
buffer of bounded reach and size, and drops those it has seen.

Two views of the buffer are proved here. Whatever is pushed, and whatever failed before, the frame
released as number `k` was pushed as number `k`, and the buffer keeps its bounds (`Released`,
`Bounded`). And while the frames that arrive are those of one sender, within the window, the buffer is the
set of frames that have arrived and not been released (`Holds`, `push_holds`).
-/

namespace NovumAgent.Relay

open List Table

/-- `u32::MAX`. -/
def u32Max : Nat := 2 ^ 32 - 1

def maxReorderDistance : Nat := 64

def maxPendingBytes : Nat := 1024 * 1024

/-- A frame of the relay: its number and its ciphertext. -/
abbrev Frame := Nat × Bytes

structure OrderedCiphertextFrames where
  nextSeq : Nat
  pending : Table Nat Bytes
  pendingBytes : Nat

namespace OrderedCiphertextFrames

/-- `OrderedCiphertextFrames::default`. -/
def start : OrderedCiphertextFrames := ⟨0, ∅, 0⟩

def advance (frames : OrderedCiphertextFrames) : Except Text OrderedCiphertextFrames :=
  if frames.nextSeq < u32Max then .ok { frames with nextSeq := frames.nextSeq + 1 }
  else .error "Noise relay sequence number exhausted".toList

/-- The loop of `push` over the frames that are due. Each round takes one out of the buffer, so its size
bounds the rounds. -/
def drain : Nat → OrderedCiphertextFrames → List Bytes →
    OrderedCiphertextFrames × Except Text (List Bytes)
  | 0, frames, ready => (frames, .ok ready)
  | rounds + 1, frames, ready =>
    match frames.pending.lookup frames.nextSeq with
    | none => (frames, .ok ready)
    | some payload =>
      let taken : OrderedCiphertextFrames :=
        { frames with
          pending := frames.pending.erase frames.nextSeq
          pendingBytes := frames.pendingBytes - payload.length }
      match taken.advance with
      | .error error => (taken, .error error)
      | .ok next => drain rounds next (ready ++ [payload])

def push (frames : OrderedCiphertextFrames) (seq : Nat) (payload : Bytes) :
    OrderedCiphertextFrames × Except Text (List Bytes) :=
  if seq < frames.nextSeq ∨ (frames.pending.lookup seq).isSome then (frames, .ok [])
  else if frames.nextSeq < seq then
    if maxReorderDistance < seq - frames.nextSeq then
      (frames, .error "Noise relay ciphertext exceeds reorder window".toList)
    else if maxPendingBytes < frames.pendingBytes + payload.length then
      (frames, .error "Noise relay pending ciphertext buffer is full".toList)
    else
      ({ frames with
          pending := frames.pending.insert seq payload
          pendingBytes := frames.pendingBytes + payload.length }, .ok [])
  else
    match frames.advance with
    | .error error => (frames, .error error)
    | .ok next => drain next.pending.size next [payload]

/-! ## Any frames at all -/

/-- What a push released. A push that failed released nothing. -/
def released : Except Text (List Bytes) → List Bytes
  | .ok ready => ready
  | .error _ => []

/-- A receiver to which the frames were pushed and that released the payloads: its buffer is within its
bounds and holds pushed frames, and the payloads are those of the numbers 0, 1, 2 and so on. After the
last number nothing is released. -/
structure Traced (pushed : List Frame) (payloads : List Bytes) (frames : OrderedCiphertextFrames) :
    Prop where
  bytes : frames.pendingBytes = Table.sumBy length frames.pending
  within : frames.pendingBytes ≤ maxPendingBytes
  held : ∀ seq payload, frames.pending.lookup seq = some payload →
    frames.nextSeq ≤ seq ∧ seq ≤ frames.nextSeq + maxReorderDistance ∧ (seq, payload) ∈ pushed
  last : frames.nextSeq ≤ u32Max
  few : payloads.length ≤ frames.nextSeq
  counted : payloads.length = frames.nextSeq ∨ frames.nextSeq = u32Max
  numbered : ∀ seq payload, payloads[seq]? = some payload → (seq, payload) ∈ pushed

/-- No frame that is due is left in the buffer. -/
def Settled (frames : OrderedCiphertextFrames) : Prop :=
  frames.pending.lookup frames.nextSeq = none

section

variable {pushed : List Frame} {payloads ready : List Bytes} {frames : OrderedCiphertextFrames}

theorem advance_cases (frames : OrderedCiphertextFrames) :
    (frames.nextSeq < u32Max ∧ frames.advance = .ok { frames with nextSeq := frames.nextSeq + 1 }) ∨
      u32Max ≤ frames.nextSeq ∧ ∃ error, frames.advance = .error error := by
  unfold advance
  by_cases hlast : frames.nextSeq < u32Max
  · exact .inl ⟨hlast, if_pos hlast⟩
  · exact .inr ⟨not_lt.mp hlast, _, if_neg hlast⟩

theorem traced_start : Traced [] [] start where
  bytes := rfl
  within := Nat.zero_le _
  held := by
    intro seq payload h
    cases h
  last := Nat.zero_le _
  few := le_refl _
  counted := .inl rfl
  numbered := by
    intro seq payload h
    cases h

variable {payload : Bytes} {seq : Nat}

theorem Traced.take (h : Traced pushed payloads frames)
    (hdue : frames.pending.lookup frames.nextSeq = some payload) :
    Traced pushed payloads
      { frames with
        pending := frames.pending.erase frames.nextSeq
        pendingBytes := frames.pendingBytes - payload.length } := by
  have hbytes := sumBy_erase (f := length) hdue
  refine { h with bytes := ?_, within := ?_, held := forall_erase h.held }
  · show frames.pendingBytes - payload.length = _
    rw [h.bytes, ← hbytes, Nat.add_sub_cancel]
  · exact le_trans (Nat.sub_le _ _) h.within

theorem Traced.release (h : Traced pushed payloads frames)
    (hmem : (frames.nextSeq, payload) ∈ pushed) (hsettled : frames.Settled)
    (hlast : frames.nextSeq < u32Max) :
    Traced pushed (payloads ++ [payload]) { frames with nextSeq := frames.nextSeq + 1 } := by
  have hcount : payloads.length = frames.nextSeq := by
    obtain hcount | hend := h.counted
    · exact hcount
    · omega
  have hmore : (payloads ++ [payload]).length = frames.nextSeq + 1 := by
    rw [length_append, hcount]
    rfl
  refine { h with
    held := ?_, last := hlast, few := le_of_eq hmore, counted := .inl hmore, numbered := ?_ }
  · intro seq other hother
    obtain ⟨hlow, hhigh, hpushed⟩ := h.held seq other hother
    have hne : seq ≠ frames.nextSeq := by
      rintro rfl
      rw [hsettled] at hother
      cases hother
    refine ⟨?_, ?_, hpushed⟩ <;> dsimp only <;> omega
  · intro seq other hother
    rw [getElem?_append] at hother
    split at hother
    next => exact h.numbered seq other hother
    next hend =>
      rw [getElem?_singleton] at hother
      obtain ⟨hzero, ⟨⟩⟩ := Option.ite_none_right_eq_some.mp hother
      rw [show seq = frames.nextSeq by omega]
      exact hmem

theorem Traced.lose (h : Traced pushed (payloads ++ ready) frames) (hlast : u32Max ≤ frames.nextSeq) :
    Traced pushed payloads frames := by
  have hfew := h.few
  rw [length_append] at hfew
  refine { h with
    few := by omega, counted := .inr (le_antisymm h.last hlast), numbered := ?_ }
  intro seq payload hpayload
  refine h.numbered seq payload ?_
  have hlt : seq < payloads.length := (List.getElem?_eq_some_iff.mp hpayload).1
  rw [getElem?_append_left hlt, hpayload]

theorem lookup_of_size_zero {t : Table Nat Bytes} (h : t.size = 0) (seq : Nat) : t.lookup seq = none := by
  cases hlookup : t.lookup seq with
  | none => rfl
  | some payload =>
    have := size_erase hlookup
    omega

theorem drain_traced {rounds : Nat} (hrounds : frames.pending.size ≤ rounds)
    (h : Traced pushed (payloads ++ ready) frames) :
    (drain rounds frames ready).1.Settled ∧
      Traced pushed (payloads ++ released (drain rounds frames ready).2)
        (drain rounds frames ready).1 := by
  induction rounds generalizing frames ready with
  | zero => exact ⟨lookup_of_size_zero (Nat.le_zero.mp hrounds) _, h⟩
  | succ rounds ih =>
    unfold drain
    split
    next hnone => exact ⟨hnone, h⟩
    next payload hdue =>
      have hsize := size_erase hdue
      have htaken := h.take hdue
      have hsettled : Settled
          { frames with
            pending := frames.pending.erase frames.nextSeq
            pendingBytes := frames.pendingBytes - payload.length } := AList.lookup_erase _ _
      have hmem := (h.held _ _ hdue).2.2
      dsimp only
      obtain ⟨hlast, hadvance⟩ | ⟨hlast, error, hadvance⟩ := advance_cases
        { frames with
          pending := frames.pending.erase frames.nextSeq
          pendingBytes := frames.pendingBytes - payload.length }
      · rw [hadvance]
        have hnext := htaken.release hmem hsettled hlast
        rw [append_assoc] at hnext
        exact ih (show size (frames.pending.erase frames.nextSeq) ≤ rounds by omega) hnext
      · rw [hadvance]
        refine ⟨hsettled, ?_⟩
        show Traced pushed (payloads ++ []) _
        rw [append_nil]
        exact htaken.lose hlast

theorem Traced.mono (h : Traced pushed payloads frames) (frame : Frame) :
    Traced (pushed ++ [frame]) payloads frames where
  __ := h
  held := fun seq payload hheld =>
    have hall := h.held seq payload hheld
    ⟨hall.1, hall.2.1, mem_append_left _ hall.2.2⟩
  numbered := fun seq payload hpayload => mem_append_left _ (h.numbered seq payload hpayload)

/-- **One push of any frame** keeps the account. -/
theorem push_traced (hsettled : frames.Settled) (h : Traced pushed payloads frames) (seq : Nat)
    (payload : Bytes) :
    (frames.push seq payload).1.Settled ∧
      Traced (pushed ++ [(seq, payload)]) (payloads ++ released (frames.push seq payload).2)
        (frames.push seq payload).1 := by
  have hframe := h.mono (seq, payload)
  have hsame : Traced (pushed ++ [(seq, payload)]) (payloads ++ []) frames := by
    rw [append_nil]
    exact hframe
  have hnew : (seq, payload) ∈ pushed ++ [(seq, payload)] :=
    mem_append_right _ (mem_singleton.mpr rfl)
  unfold push
  split
  next => exact ⟨hsettled, hsame⟩
  next hfresh =>
    push Not at hfresh
    obtain ⟨hlow, hunknown⟩ := hfresh
    have hnone : frames.pending.lookup seq = none := Option.not_isSome_iff_eq_none.mp hunknown
    split
    next habove =>
      split
      next => exact ⟨hsettled, hsame⟩
      next hnear =>
        split
        next => exact ⟨hsettled, hsame⟩
        next hroom =>
          have hsettled' : (frames.pending.insert seq payload).lookup frames.nextSeq = none := by
            rw [lookup_insert_eq, if_neg (ne_of_lt habove)]
            exact hsettled
          refine ⟨hsettled', { hsame with bytes := ?_, within := not_lt.mp hroom, held := ?_ }⟩
          · show frames.pendingBytes + payload.length = _
            rw [sumBy_insert_of_notMem (notMem_of_lookup_none hnone), h.bytes, add_comm]
          · refine forall_insert hframe.held ⟨le_of_lt habove, ?_, hnew⟩
            dsimp only
            omega
    next hnotAbove =>
      obtain rfl : seq = frames.nextSeq := by omega
      obtain ⟨hlast, hadvance⟩ | ⟨hlast, error, hadvance⟩ := advance_cases frames
      · rw [hadvance]
        exact drain_traced (le_refl _) (hframe.release hnew hsettled hlast)
      · rw [hadvance]
        exact ⟨hsettled, hsame⟩

/-- Pushing frames one after the other, whatever each push answers, with all that is released. -/
def pushAll (frames : OrderedCiphertextFrames) : List Frame → OrderedCiphertextFrames × List Bytes
  | [] => (frames, [])
  | (seq, payload) :: later =>
    let (next, ready) := frames.push seq payload
    let (final, payloads) := pushAll next later
    (final, released ready ++ payloads)

theorem pushAll_traced (later : List Frame) (hsettled : frames.Settled)
    (h : Traced pushed payloads frames) :
    (frames.pushAll later).1.Settled ∧
      Traced (pushed ++ later) (payloads ++ (frames.pushAll later).2) (frames.pushAll later).1 := by
  induction later generalizing frames pushed payloads with
  | nil =>
    refine ⟨hsettled, ?_⟩
    rw [append_nil]
    show Traced pushed (payloads ++ []) frames
    rw [append_nil]
    exact h
  | cons frame later ih =>
    obtain ⟨seq, payload⟩ := frame
    obtain ⟨hsettled, htraced⟩ := push_traced hsettled h seq payload
    obtain ⟨hend, hall⟩ := ih hsettled htraced
    rw [append_assoc, append_assoc] at hall
    exact ⟨hend, hall⟩

theorem Traced.size_le (h : Traced pushed payloads frames) (hsettled : frames.Settled) :
    frames.pending.size ≤ maxReorderDistance := by
  have hkeys : frames.pending.keys.toFinset ⊆
      Finset.Ioc frames.nextSeq (frames.nextSeq + maxReorderDistance) := by
    intro seq hseq
    obtain ⟨payload, hpayload⟩ : ∃ payload, frames.pending.lookup seq = some payload :=
      Option.isSome_iff_exists.mp (AList.lookup_isSome.mpr (mem_toFinset.mp hseq))
    obtain ⟨hlow, hhigh, -⟩ := h.held seq payload hpayload
    have hne : frames.nextSeq ≠ seq := by
      rintro rfl
      rw [hsettled] at hpayload
      cases hpayload
    exact Finset.mem_Ioc.mpr ⟨Nat.lt_of_le_of_ne hlow hne, hhigh⟩
  calc frames.pending.size = frames.pending.keys.length := (length_map _).symm
    _ = frames.pending.keys.toFinset.card := (toFinset_card_of_nodup (AList.keys_nodup _)).symm
    _ ≤ (Finset.Ioc frames.nextSeq (frames.nextSeq + maxReorderDistance)).card :=
      Finset.card_le_card hkeys
    _ = maxReorderDistance := by rw [Nat.card_Ioc, Nat.add_sub_cancel_left]

end

/-! ## The frames of one sender -/

/-- The buffer of a receiver at which the given frames have arrived: those that are not released. -/
structure Holds (arrived : Finset Frame) (frames : OrderedCiphertextFrames) : Prop where
  lookup : ∀ seq payload, frames.pending.lookup seq = some payload ↔
    (seq, payload) ∈ arrived ∧ frames.nextSeq ≤ seq
  bytes : frames.pendingBytes = ∑ frame ∈ arrived with frames.nextSeq ≤ frame.1, frame.2.length
  below : ∀ seq < frames.nextSeq, ∃ payload, (seq, payload) ∈ arrived

/-- The frames are records of the sender under their numbers. -/
def SentFrom (records : List Bytes) (arrived : Finset Frame) : Prop :=
  ∀ frame ∈ arrived, records[frame.1]? = some frame.2

section

variable {records : List Bytes} {arrived : Finset Frame} {frames : OrderedCiphertextFrames}

theorem holds_start : Holds ∅ start where
  lookup := by
    intro seq payload
    constructor
    · intro h
      cases h
    · rintro ⟨h, -⟩
      exact absurd h (Finset.notMem_empty _)
  bytes := rfl
  below := by
    intro seq h
    exact absurd h (Nat.not_lt_zero _)

theorem bytes_from (hsent : SentFrom records arrived) {next : Nat}
    (hmem : (next, payload) ∈ arrived) :
    ∑ frame ∈ arrived with next ≤ frame.1, frame.2.length =
      payload.length + ∑ frame ∈ arrived with next + 1 ≤ frame.1, frame.2.length := by
  have hsplit : arrived.filter (fun frame => next ≤ frame.1) =
      insert (next, payload) (arrived.filter fun frame => next + 1 ≤ frame.1) := by
    ext ⟨seq, other⟩
    simp only [Finset.mem_filter, Finset.mem_insert, Prod.mk.injEq]
    constructor
    · rintro ⟨hother, hle⟩
      obtain rfl | hlt := Nat.eq_or_lt_of_le hle
      · have hsame : some other = some payload :=
          (hsent (next, other) hother).symm.trans (hsent (next, payload) hmem)
        exact .inl ⟨rfl, Option.some.inj hsame⟩
      · exact .inr ⟨hother, hlt⟩
    · rintro (⟨rfl, rfl⟩ | ⟨hother, hlt⟩)
      · exact ⟨hmem, le_refl _⟩
      · exact ⟨hother, le_of_lt hlt⟩
  rw [hsplit, Finset.sum_insert]
  intro h
  have := (Finset.mem_filter.mp h).2
  dsimp only at this
  omega

theorem Holds.release (h : Holds arrived frames) (hsent : SentFrom records arrived)
    (hmem : (frames.nextSeq, payload) ∈ arrived) {taken : OrderedCiphertextFrames}
    (hnext : taken.nextSeq = frames.nextSeq + 1)
    (hpending : ∀ seq, taken.pending.lookup seq =
      if seq = frames.nextSeq then none else frames.pending.lookup seq)
    (hbytes : taken.pendingBytes = frames.pendingBytes - payload.length) :
    Holds arrived taken where
  lookup := by
    intro seq other
    rw [hpending, hnext]
    split
    next heq =>
      constructor
      · intro h
        cases h
      · rintro ⟨-, hle⟩
        omega
    next hne =>
      rw [h.lookup]
      constructor
      · rintro ⟨hother, hle⟩
        exact ⟨hother, by omega⟩
      · rintro ⟨hother, hle⟩
        exact ⟨hother, by omega⟩
  bytes := by
    rw [hbytes, hnext, h.bytes, bytes_from hsent hmem, Nat.add_sub_cancel_left]
  below := by
    intro seq hseq
    rw [hnext] at hseq
    obtain hlt | rfl := Nat.lt_succ_iff_lt_or_eq.mp hseq
    · exact h.below seq hlt
    · exact ⟨payload, hmem⟩

/-- **Draining the buffer** releases the records that follow, up to the first that has not arrived. -/
theorem drain_holds (ready : List Bytes) (hsent : SentFrom records arrived) (hrecords : records.length ≤ u32Max)
    {rounds : Nat} (hrounds : frames.pending.size ≤ rounds) (h : Holds arrived frames) :
    ∃ next due, drain rounds frames ready = (next, .ok (ready ++ due)) ∧ Holds arrived next ∧
      next.Settled ∧ records.drop frames.nextSeq = due ++ records.drop next.nextSeq := by
  induction rounds generalizing frames ready with
  | zero =>
    refine ⟨frames, [], ?_, h, lookup_of_size_zero (Nat.le_zero.mp hrounds) _, rfl⟩
    rw [append_nil]
    rfl
  | succ rounds ih =>
    unfold drain
    split
    next hnone => exact ⟨frames, [], by rw [append_nil], h, hnone, rfl⟩
    next payload hdue =>
      have hsize := size_erase hdue
      have hmem := ((h.lookup _ _).mp hdue).1
      obtain ⟨hlt, hrecord⟩ := List.getElem?_eq_some_iff.mp (hsent _ hmem)
      dsimp only at hlt hrecord
      have hadvance : advance
          { frames with
            pending := frames.pending.erase frames.nextSeq
            pendingBytes := frames.pendingBytes - payload.length } =
          .ok ⟨frames.nextSeq + 1, frames.pending.erase frames.nextSeq,
            frames.pendingBytes - payload.length⟩ := if_pos (lt_of_lt_of_le hlt hrecords)
      dsimp only
      rw [hadvance]
      have hnext : Holds arrived ⟨frames.nextSeq + 1, frames.pending.erase frames.nextSeq,
          frames.pendingBytes - payload.length⟩ :=
        h.release hsent hmem rfl (fun seq => lookup_erase_eq seq) rfl
      have hfewer : size (frames.pending.erase frames.nextSeq) ≤ rounds := by omega
      obtain ⟨next, due, hdrain, hholds, hsettled, hdrop⟩ := ih (ready ++ [payload]) hfewer hnext
      refine ⟨next, payload :: due, ?_, hholds, hsettled, ?_⟩
      · rw [append_assoc] at hdrain
        exact hdrain
      · rw [drop_eq_getElem_cons hlt, hrecord, hdrop]
        rfl

theorem Holds.filter_eq (h : Holds arrived frames) (hsettled : frames.Settled) :
    arrived.filter (fun frame => frames.nextSeq ≤ frame.1) =
      arrived.filter fun frame => frames.nextSeq < frame.1 := by
  refine Finset.filter_congr fun frame hframe => ⟨fun hle => ?_, le_of_lt⟩
  refine Nat.lt_of_le_of_ne hle fun heq => ?_
  have hthere := (h.lookup frame.1 frame.2).mpr ⟨hframe, hle⟩
  rw [← heq, hsettled] at hthere
  cases hthere

theorem Holds.arrived_before (h : Holds arrived frames) (hsent : SentFrom records arrived)
    (hframe : records[seq]? = some payload)
    (hknown : seq < frames.nextSeq ∨ (frames.pending.lookup seq).isSome) :
    (seq, payload) ∈ arrived := by
  obtain ⟨other, hother⟩ : ∃ other, (seq, other) ∈ arrived := by
    obtain hlow | hheld := hknown
    · exact h.below seq hlow
    · obtain ⟨other, hother⟩ := Option.isSome_iff_exists.mp hheld
      exact ⟨other, ((h.lookup seq other).mp hother).1⟩
  cases hframe.symm.trans (hsent _ hother)
  exact hother

theorem Holds.keep (h : Holds arrived frames)
    (hnew : (seq, payload) ∉ arrived) (hnone : frames.pending.lookup seq = none)
    (habove : frames.nextSeq < seq) :
    Holds (insert (seq, payload) arrived)
      { frames with
        pending := frames.pending.insert seq payload
        pendingBytes := frames.pendingBytes + payload.length } where
  lookup := by
    intro other bytes
    dsimp only
    rw [lookup_insert_eq, Finset.mem_insert, Prod.mk.injEq]
    split
    next heq =>
      subst heq
      constructor
      · rintro ⟨⟩
        exact ⟨.inl ⟨rfl, rfl⟩, le_of_lt habove⟩
      · rintro ⟨⟨-, rfl⟩ | hmem, hle⟩
        · rfl
        · rw [(h.lookup _ _).mpr ⟨hmem, hle⟩] at hnone
          cases hnone
    next hne =>
      rw [h.lookup]
      constructor
      · rintro ⟨hmem, hle⟩
        exact ⟨.inr hmem, hle⟩
      · rintro ⟨⟨heq, -⟩ | hmem, hle⟩
        · exact absurd heq hne
        · exact ⟨hmem, hle⟩
  bytes := by
    dsimp only
    rw [Finset.filter_insert, if_pos (le_of_lt habove), Finset.sum_insert, h.bytes, add_comm]
    exact fun hmem => hnew (Finset.mem_filter.mp hmem).1
  below := by
    intro other hother
    obtain ⟨bytes, hbytes⟩ := h.below other hother
    exact ⟨bytes, Finset.mem_insert_of_mem hbytes⟩

theorem Holds.pass (h : Holds arrived frames) (hsettled : frames.Settled) (payload : Bytes) :
    Holds (insert (frames.nextSeq, payload) arrived) { frames with nextSeq := frames.nextSeq + 1 } where
  lookup := by
    intro seq bytes
    dsimp only
    rw [h.lookup, Finset.mem_insert, Prod.mk.injEq]
    constructor
    · rintro ⟨hmem, hle⟩
      have hlt : (seq, bytes) ∈ arrived.filter fun frame => frames.nextSeq < frame.1 :=
        h.filter_eq hsettled ▸ Finset.mem_filter.mpr ⟨hmem, hle⟩
      exact ⟨.inr hmem, (Finset.mem_filter.mp hlt).2⟩
    · rintro ⟨⟨rfl, -⟩ | hmem, hle⟩
      · omega
      · exact ⟨hmem, le_of_lt hle⟩
  bytes := by
    dsimp only
    rw [Finset.filter_insert, if_neg (Nat.not_succ_le_self _), h.bytes, h.filter_eq hsettled]
    rfl
  below := by
    intro seq hseq
    obtain hlt | rfl := Nat.lt_succ_iff_lt_or_eq.mp hseq
    · obtain ⟨bytes, hbytes⟩ := h.below seq hlt
      exact ⟨bytes, Finset.mem_insert_of_mem hbytes⟩
    · exact ⟨payload, Finset.mem_insert_self _ _⟩

/-- **One push of a sender's frame** that stays within the window: it succeeds and releases the records up
to the first that has not arrived. -/
theorem push_holds (hsent : SentFrom records arrived)
    (hrecords : records.length ≤ u32Max) (hframe : records[seq]? = some payload)
    (h : Holds arrived frames) (hsettled : frames.Settled)
    (hnear : seq ≤ frames.nextSeq + maxReorderDistance)
    (hroom : ∑ frame ∈ insert (seq, payload) arrived with frames.nextSeq < frame.1, frame.2.length ≤
      maxPendingBytes) :
    ∃ next due, frames.push seq payload = (next, .ok due) ∧
      Holds (insert (seq, payload) arrived) next ∧ next.Settled ∧
      records.drop frames.nextSeq = due ++ records.drop next.nextSeq := by
  have hsent' : SentFrom records (insert (seq, payload) arrived) := by
    intro frame hmem
    obtain rfl | hold := Finset.mem_insert.mp hmem
    · exact hframe
    · exact hsent frame hold
  unfold push
  by_cases hknown : seq < frames.nextSeq ∨ (frames.pending.lookup seq).isSome
  · rw [if_pos hknown, Finset.insert_eq_of_mem (h.arrived_before hsent hframe hknown)]
    exact ⟨frames, [], rfl, h, hsettled, rfl⟩
  rw [if_neg hknown]
  push Not at hknown
  obtain ⟨hlow, hunknown⟩ := hknown
  have hnone : frames.pending.lookup seq = none := Option.not_isSome_iff_eq_none.mp hunknown
  have hnew : (seq, payload) ∉ arrived := by
    intro hmem
    rw [(h.lookup _ _).mpr ⟨hmem, hlow⟩] at hnone
    cases hnone
  by_cases habove : frames.nextSeq < seq
  · have hfits : frames.pendingBytes + payload.length ≤ maxPendingBytes := by
      rw [Finset.filter_insert, if_pos habove, Finset.sum_insert
        (fun hmem => hnew (Finset.mem_filter.mp hmem).1), ← h.filter_eq hsettled, ← h.bytes] at hroom
      dsimp only at hroom
      omega
    have hsettled' : (frames.pending.insert seq payload).lookup frames.nextSeq = none := by
      rw [lookup_insert_eq, if_neg (ne_of_lt habove)]
      exact hsettled
    rw [if_pos habove, if_neg (by omega), if_neg (not_lt.mpr hfits)]
    exact ⟨_, [], rfl, h.keep hnew hnone habove, hsettled', rfl⟩
  · obtain rfl : seq = frames.nextSeq := by omega
    obtain ⟨hlt, hrecord⟩ := List.getElem?_eq_some_iff.mp hframe
    have hadvance : frames.advance = .ok { frames with nextSeq := frames.nextSeq + 1 } :=
      if_pos (lt_of_lt_of_le hlt hrecords)
    rw [if_neg habove, hadvance]
    obtain ⟨next, due, hdrain, hholds, hend, hdrop⟩ :=
      drain_holds [payload] hsent' hrecords (le_refl _) (h.pass hsettled payload)
    refine ⟨next, payload :: due, hdrain, hholds, hend, ?_⟩
    rw [drop_eq_getElem_cons hlt, hrecord, hdrop]
    rfl

end

end OrderedCiphertextFrames

end NovumAgent.Relay
