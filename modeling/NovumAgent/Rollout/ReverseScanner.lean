import Mathlib.Logic.Function.Iterate
import NovumAgent.Lib.Text

/-!
# Reading records from the end

A file of records, one a line, is read from its end in chunks. A record is collected in fragments, last byte
first, and one that outgrows the limit is dropped up to where it starts. `rest` says what is still to be
handed to the JSON parser: a round of the loop hands over the first of it or leaves it as it is.
-/

namespace NovumAgent.Rollout

open List

def readChunkSize : Nat := 64 * 1024

/-- The byte that ends a record. -/
def newline : UInt8 := 10

def isAsciiWhitespace (b : UInt8) : Bool := b ∈ [9, 10, 12, 13, 32]

/-- `memrchr` at a newline: what stands in front of the last one, and behind it. -/
def memrchr : Bytes → Option (Bytes × Bytes)
  | [] => none
  | b :: rest =>
    match memrchr rest with
    | some (before, fragment) => some (b :: before, fragment)
    | none => if b = newline then some ([], rest) else none

/-- `ReverseJsonlScanner`: of the reader, what stands in front of `next_chunk_end`, and of the chunk, what
stands in front of its position. -/
structure ReverseJsonlScanner where
  reader : Bytes
  chunk : Bytes
  recordReversed : Bytes
  maxRecordBytes : Option Nat
  discardingOversizedRecord : Bool

namespace ReverseJsonlScanner

/-- `new_at` and `with_max_record_bytes`. -/
def newAt (reader : Bytes) (endByteOffset : Nat) (maxRecordBytes : Option Nat) :
    Option ReverseJsonlScanner :=
  if reader.length < endByteOffset then none
  else some ⟨reader.take endByteOffset, [], [], maxRecordBytes, false⟩

variable (s : ReverseJsonlScanner)

/-- The chunk at hand, or else the next one, behind what is not read yet. -/
def loaded : Bytes × Bytes :=
  if s.chunk = [] then
    let nextChunkEnd := s.reader.length - min s.reader.length readChunkSize
    (s.reader.take nextChunkEnd, s.reader.drop nextChunkEnd)
  else (s.reader, s.chunk)

/-- A fragment of the record; the position moves in front of it. The lengths are those of vectors, so that
their sum does not saturate. -/
def collect (fragment reader chunk : Bytes) : ReverseJsonlScanner :=
  if s.discardingOversizedRecord then { s with reader, chunk }
  else if s.maxRecordBytes.any (· < s.recordReversed.length + fragment.length) then
    { s with reader, chunk, recordReversed := [], discardingOversizedRecord := true }
  else { s with reader, chunk, recordReversed := s.recordReversed ++ fragment.reverse }

/-- `finish_record`, up to the JSON parser: the record it is given. -/
def finishRecord : Option Bytes × ReverseJsonlScanner :=
  let record := s.recordReversed.reverse
  (if record.all isAsciiWhitespace then none else some record, { s with recordReversed := [] })

/-- The start of a record is found: it was dropped, or it is finished. -/
def endRecord : Option Bytes × ReverseJsonlScanner :=
  if s.discardingOversizedRecord then (none, { s with discardingOversizedRecord := false })
  else s.finishRecord

/-- One round of the loop of `scan_next`: what the call returns, or `none` where the loop goes on. -/
def iterate : Option (Option Bytes) × ReverseJsonlScanner :=
  if s.chunk = [] ∧ s.reader = [] then (some s.endRecord.1, s.endRecord.2)
  else
    let (reader, chunk) := s.loaded
    match memrchr chunk with
    | some (before, fragment) =>
      let (outcome, next) := (s.collect fragment reader before).endRecord
      (outcome.map some, next)
    | none => (none, s.collect chunk reader [])

/-- Calls of `scan_next` until one returns `None`, in a number of rounds: the records that the JSON parser was
given. -/
def scanAll : Nat → ReverseJsonlScanner → Option (List Bytes)
  | 0, _ => none
  | rounds + 1, s =>
    match s.iterate with
    | (none, next) => scanAll rounds next
    | (some none, _) => some []
    | (some (some record), next) => (scanAll rounds next).map (record :: ·)

/-! ## What is left to read -/

/-- Is a record handed over? -/
def kept (limit : Option Nat) (record : Bytes) : Bool :=
  !record.all isAsciiWhitespace && limit.all (record.length ≤ ·)

/-- The records of a text, from last to first. -/
def records (text : Bytes) : List Bytes := (text.splitOn newline).reverse

/-- The records that are still to be handed over, with this text in front of the buffer. -/
def rest (text : Bytes) : List Bytes :=
  let all := records (text ++ s.recordReversed.reverse)
  (if s.discardingOversizedRecord then all.tail else all).filter (kept s.maxRecordBytes)

/-- The bytes that are not read yet, as if a newline stood in front of them. -/
def unread : Bytes := newline :: (s.reader ++ s.chunk)

/-- A bound of the rounds that are left. -/
def rounds : Nat := 2 * s.unread.length + if s.recordReversed = [] then 0 else 1

/-- The buffer is a part of one record within the limit, and is empty while a record is dropped. -/
structure Valid (limit : Option Nat) : Prop where
  limit_eq : s.maxRecordBytes = limit
  line : newline ∉ s.recordReversed.reverse
  within : limit.all (s.recordReversed.length ≤ ·) = true
  dropped : s.discardingOversizedRecord = true → s.recordReversed = []

variable {s : ReverseJsonlScanner} {limit : Option Nat} {fragment : Bytes}

theorem memrchr_spec (chunk : Bytes) : (memrchr chunk).elim (newline ∉ chunk) fun found =>
    chunk = found.1 ++ newline :: found.2 ∧ newline ∉ found.2 := by
  induction chunk with
  | nil => exact not_mem_nil
  | cons b chunk ih =>
    rw [memrchr]
    cases hfound : memrchr chunk with
    | some found =>
      rw [hfound] at ih
      exact ⟨congrArg (b :: ·) ih.1, ih.2⟩
    | none =>
      rw [hfound] at ih
      dsimp only
      split
      next h => exact ⟨congrArg (· :: chunk) h, ih⟩
      next h => exact not_mem_cons_of_ne_of_not_mem (Ne.symm h) ih

theorem records_append (text : Bytes) (h : newline ∉ fragment) :
    records (text ++ newline :: fragment) = fragment :: records text := by
  rw [records, splitOn_append_cons_self, splitOn_eq_singleton h, reverse_append]
  rfl

theorem records_behind (text : Bytes) : ∃ last others, ∀ fragment, newline ∉ fragment →
    records (text ++ fragment) = (last ++ fragment) :: others := by
  have hspec := memrchr_spec text
  cases hfound : memrchr text with
  | none =>
    rw [hfound] at hspec
    refine ⟨text, [], fun fragment h => ?_⟩
    rw [records, splitOn_eq_singleton (mt mem_append.mp (not_or.mpr ⟨hspec, h⟩)), reverse_singleton]
  | some found =>
    rw [hfound] at hspec
    refine ⟨found.2, records found.1, fun fragment h => ?_⟩
    rw [hspec.1, append_assoc, cons_append,
      records_append _ (mt mem_append.mp (not_or.mpr ⟨hspec.2, h⟩))]

theorem loaded_spec (h : ¬ (s.chunk = [] ∧ s.reader = [])) :
    s.loaded.1 ++ s.loaded.2 = s.reader ++ s.chunk ∧ s.loaded.2 ≠ [] := by
  unfold loaded
  split
  next hnil =>
    have hpos : 0 < s.reader.length := length_pos_iff.mpr fun hreader => h ⟨hnil, hreader⟩
    refine ⟨by rw [take_append_drop, hnil, append_nil], ne_nil_of_length_pos ?_⟩
    rw [length_drop, readChunkSize]
    omega
  next hchunk => exact ⟨rfl, hchunk⟩

section

variable (h : s.Valid limit)
include h

theorem Valid.collect (hfragment : newline ∉ fragment) (reader chunk : Bytes) :
    (s.collect fragment reader chunk).Valid limit ∧
      (s.collect fragment reader chunk).unread = newline :: (reader ++ chunk) ∧
      ∀ text, (s.collect fragment reader chunk).rest text = s.rest (text ++ fragment) := by
  have hline : newline ∉ fragment ++ s.recordReversed.reverse :=
    mt mem_append.mp (not_or.mpr ⟨hfragment, h.line⟩)
  have hlimit := h.limit_eq
  unfold ReverseJsonlScanner.collect
  split
  next hdropping =>
    refine ⟨⟨hlimit, h.line, h.within, h.dropped⟩, rfl, fun text => ?_⟩
    obtain ⟨last, others, hrecords⟩ := records_behind text
    simp only [rest, if_pos hdropping, append_assoc, hrecords _ hline, hrecords _ h.line, tail_cons]
  next hkeeping =>
    split
    next hlong =>
      refine ⟨⟨hlimit, not_mem_nil, by cases limit <;> simp, fun _ => rfl⟩, rfl, fun text => ?_⟩
      obtain ⟨last, others, hrecords⟩ := records_behind text
      have hdrop : ¬ kept limit (last ++ (fragment ++ s.recordReversed.reverse)) := by
        cases limit <;> simp [hlimit, kept] at hlong ⊢
        omega
      simp only [rest, if_neg hkeeping, append_assoc, hrecords _ hline, hlimit, filter_cons_of_neg hdrop]
      simp only [reverse_nil, hrecords [] not_mem_nil, if_true, tail_cons]
    next hfits =>
      refine ⟨⟨hlimit, ?_, ?_, fun hdropped => absurd hdropped hkeeping⟩, rfl, fun text => ?_⟩
      · rwa [reverse_append, reverse_reverse]
      · cases limit <;> simp [hlimit] at hfits ⊢
        exact hfits
      · simp [rest]

theorem Valid.endRecord : s.endRecord.2.Valid limit ∧ s.endRecord.2.recordReversed = [] ∧
    s.endRecord.2.unread = s.unread ∧ (s.recordReversed = [] → s.endRecord.1 = none) ∧
      (∀ text, s.endRecord.2.rest text = (records text).filter (kept limit)) ∧
      ∀ text, s.rest (text ++ [newline]) = s.endRecord.1.toList ++ s.endRecord.2.rest text := by
  have hrecords : ∀ text, records (text ++ [newline] ++ s.recordReversed.reverse) = _ := fun text => by
    rw [append_assoc, singleton_append, records_append text h.line]
  unfold ReverseJsonlScanner.endRecord
  split
  next hdropping =>
    have hnil := h.dropped hdropping
    refine ⟨⟨h.limit_eq, h.line, h.within, nofun⟩, hnil, rfl, fun _ => rfl, fun text => ?_,
      fun text => ?_⟩
    · simp [rest, hnil, h.limit_eq]
    · simp only [rest, hrecords, if_pos hdropping, tail_cons]
      simp [hnil]
  next hkeeping =>
    have hrest : ∀ text, s.finishRecord.2.rest text = (records text).filter (kept limit) := fun text => by
      simp [rest, finishRecord, hkeeping, h.limit_eq]
    refine ⟨⟨h.limit_eq, not_mem_nil, by cases limit <;> simp [finishRecord], fun _ => rfl⟩, rfl, rfl,
      ?_, hrest, fun text => ?_⟩
    · intro hnil
      simp [finishRecord, hnil]
    · rw [hrest, rest, hrecords, if_neg hkeeping, h.limit_eq, filter_cons, kept, length_reverse, h.within]
      unfold finishRecord
      dsimp only
      cases s.recordReversed.reverse.all isAsciiWhitespace with
      | true => rfl
      | false => rfl

/-- **Every round** hands over the first record that is left, or leaves them as they are, and the last one
leaves none. -/
theorem Valid.iterate : s.iterate.2.Valid limit ∧
    s.rest s.unread = s.iterate.1.join.toList ++ s.iterate.2.rest s.iterate.2.unread ∧
    (s.iterate.1 = some none → s.iterate.2.rest s.iterate.2.unread = []) ∧
    (s.iterate.1 ≠ some none → s.iterate.2.rounds < s.rounds) := by
  unfold ReverseJsonlScanner.iterate
  split
  next hend =>
    obtain ⟨hvalid, hnil, hunread, hsome, hdone, hrest⟩ := h.endRecord
    have hstart : s.unread = [newline] := by simp [unread, hend]
    have hlast : s.endRecord.2.rest [newline] = [] := by
      rw [hdone]
      rfl
    have hrest := hrest []
    rw [hdone] at hrest
    refine ⟨hvalid, ?_, fun _ => ?_, fun hne => ?_⟩
    · rw [hunread, hstart]
      exact hrest.trans (congrArg _ hlast.symm)
    · rw [hunread, hstart]
      exact hlast
    · have hbuffer : s.recordReversed ≠ [] := fun hnil => hne (congrArg some (hsome hnil))
      rw [rounds, rounds, hunread, if_pos hnil, if_neg hbuffer]
      exact Nat.lt_succ_self _
  next hmore =>
    obtain ⟨hloaded, hchunk⟩ := loaded_spec hmore
    have hunread : s.unread = newline :: (s.loaded.1 ++ s.loaded.2) := by rw [hloaded]; rfl
    have hspec := memrchr_spec s.loaded.2
    have hpos := length_pos_iff.mpr hchunk
    dsimp only
    cases hfound : memrchr s.loaded.2 with
    | none =>
      rw [hfound] at hspec
      obtain ⟨hvalid, hunread', hrest⟩ := h.collect hspec s.loaded.1 []
      refine ⟨hvalid, ?_, nofun, fun _ => ?_⟩
      · rw [hunread', hrest, hunread, append_nil]
        rfl
      · rw [rounds, rounds, hunread', hunread, length_cons, length_cons, length_append, length_append]
        split <;> split <;> simp <;> omega
    | some found =>
      rw [hfound] at hspec
      obtain ⟨hvalid, hunread', hrest⟩ := h.collect hspec.2 s.loaded.1 found.1
      obtain ⟨hended, hnil, hsame, -, -, hrest'⟩ := hvalid.endRecord
      refine ⟨hended, ?_, ?_, fun _ => ?_⟩
      · have hjoin : ∀ outcome : Option Bytes, (outcome.map some).join = outcome := by
          rintro (_ | _) <;> rfl
        rw [hjoin, hsame, hunread', ← hrest', hrest, hunread, hspec.1]
        simp
      · cases (s.collect found.2 s.loaded.1 found.1).endRecord.1 <;> simp
      · rw [rounds, rounds, hsame, hunread', hunread, if_pos hnil, hspec.1]
        simp
        omega

end

theorem scanAll_eq {fuel : Nat} (h : s.Valid limit) (hfuel : s.rounds < fuel) :
    scanAll fuel s = some (s.rest s.unread) := by
  induction fuel generalizing s with
  | zero => cases hfuel
  | succ fuel ih =>
    obtain ⟨hvalid, hrest, hlast, hnearer⟩ := h.iterate
    have hnext := fun hne => ih hvalid (Nat.lt_of_lt_of_le (hnearer hne) (Nat.le_of_lt_succ hfuel))
    rw [scanAll, hrest]
    split
    next heq =>
      rw [heq] at hnext ⊢
      exact hnext nofun
    next heq =>
      rw [hlast (by rw [heq]), heq]
      rfl
    next heq =>
      rw [heq] at hnext ⊢
      rw [hnext nofun]
      rfl

/-- **The scanner hands over the records in front of the offset**, from last to first, that are neither blank
nor longer than the limit, wherever the chunks end. And the buffer is within the limit, after every round
and with any fragment that is collected in the next. -/
theorem reverse_scan_exact (reader : Bytes) (endByteOffset : Nat) (limit : Option Nat) :
    ((newAt reader endByteOffset limit).isSome = true ↔ endByteOffset ≤ reader.length) ∧
      ∀ s ∈ newAt reader endByteOffset limit,
        (∀ fuel, 2 * endByteOffset + 2 < fuel →
          s.scanAll fuel = some ((records (reader.take endByteOffset)).filter (kept limit))) ∧
        ∀ n, let now := (fun s => s.iterate.2)^[n] s
          limit.all (now.recordReversed.length ≤ ·) = true ∧
            ∀ fragment reader chunk, newline ∉ fragment →
              limit.all ((now.collect fragment reader chunk).recordReversed.length ≤ ·) = true := by
  unfold newAt
  split
  next hpast => exact ⟨by simp [hpast], nofun⟩
  next hin =>
    refine ⟨by simp [Nat.le_of_not_lt hin], ?_⟩
    rintro _ ⟨⟩
    have hvalid : Valid ⟨reader.take endByteOffset, [], [], limit, false⟩ limit :=
      ⟨rfl, not_mem_nil, by cases limit <;> simp, nofun⟩
    refine ⟨fun fuel hfuel => ?_, fun n => ?_⟩
    · have hnil : ∀ text, records (newline :: text) = records text ++ [[]] := fun text => by
        rw [records, ← nil_append (newline :: text), splitOn_append_cons_self, reverse_append]
        rfl
      rw [scanAll_eq hvalid (by simp [rounds, unread]; omega)]
      simp [rest, unread, hnil, kept]
    · have hnow := Function.Iterate.rec (Valid · limit) hvalid (fun _ h => h.iterate.1) n
      exact ⟨hnow.within, fun fragment reader chunk hline => (hnow.collect hline reader chunk).1.within⟩

end ReverseJsonlScanner

end NovumAgent.Rollout
