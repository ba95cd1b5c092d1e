import NovumAgent.Lib.Utf8

/-!
# The head and the tail of an output

A buffer keeps the first bytes of an output up to a budget, the last ones of the others up to another, and the number
of those between. Chunks are pushed to it, and other buffers, which themselves are summaries of what was pushed to
them.

What a buffer holds is a function of the bytes (`summary`): the head is a part of the whole output, and the tail
and the count are a function of what is behind the head. With that, a push to the tail is the one step that
everything comes down to (`pushTail_tailOf`), and the shortcuts of `pushBuffer` are ways to the same.
-/

namespace NovumAgent.UnifiedExec

open List

@[ext]
structure HeadTailBuffer where
  head : Bytes
  tail : Bytes
  omittedBytes : Nat

namespace HeadTailBuffer

/-- `HeadTailBuffer::default`. -/
def empty : HeadTailBuffer := ⟨[], [], 0⟩

section

variable (maxBytes : Nat)

def headBudget : Nat := maxBytes / 2

def tailBudget : Nat := maxBytes - headBudget maxBytes

/-- `fill_head`: the buffer, and the bytes that did not fit. -/
def fillHead (buffer : HeadTailBuffer) (chunk : Bytes) : HeadTailBuffer × Bytes :=
  let remainingHead := headBudget maxBytes - buffer.head.length
  ({ buffer with head := buffer.head ++ chunk.take remainingHead }, chunk.drop remainingHead)

def pushTail (buffer : HeadTailBuffer) (chunk : Bytes) : HeadTailBuffer :=
  let remainingTail := tailBudget maxBytes - buffer.tail.length
  let excessTail := chunk.length - remainingTail
  { buffer with
    omittedBytes := saturatingAdd buffer.omittedBytes excessTail
    tail :=
      if excessTail < buffer.tail.length then buffer.tail.drop excessTail ++ chunk
      else chunk.drop (excessTail - buffer.tail.length) }

def pushChunk (buffer : HeadTailBuffer) (chunk : Bytes) : HeadTailBuffer :=
  let (buffer, chunk) := buffer.fillHead maxBytes chunk
  buffer.pushTail maxBytes chunk

/-- The first part of `push_buffer`: the head of the pushed buffer, and what of it did not fit. -/
def takeHead (self : HeadTailBuffer) (head : Bytes) : HeadTailBuffer × Bytes :=
  if self.head = [] then ({ self with head := head }, []) else self.fillHead maxBytes head

/-- The second part of `push_buffer`: what did not fit, and the tail of the pushed buffer. That is a ring; `wrap`
says where its first slice ends. -/
def takeTail (self : HeadTailBuffer) (overflow tail : Bytes) (wrap : Nat) : HeadTailBuffer :=
  if tail.length = tailBudget maxBytes then
    { self with
      omittedBytes :=
        saturatingAdd (saturatingAdd self.omittedBytes self.tail.length) overflow.length
      tail := tail }
  else
    let self := self.pushTail maxBytes overflow
    if self.tail = [] then { self with tail := tail }
    else (self.pushTail maxBytes (tail.take wrap)).pushTail maxBytes (tail.drop wrap)

def pushBuffer (self buffer : HeadTailBuffer) (wrap : Nat) : HeadTailBuffer :=
  let self := { self with omittedBytes := saturatingAdd self.omittedBytes buffer.omittedBytes }
  let (self, overflow) := self.takeHead maxBytes buffer.head
  self.takeTail maxBytes overflow buffer.tail wrap

/-! ## Summaries -/

/-- The last bytes, up to a number. -/
def lastBytes (n : Nat) (bytes : Bytes) : Bytes := bytes.drop (bytes.length - n)

/-- A buffer with a head, and with what it keeps of the bytes behind it. -/
def tailOf (head behind : Bytes) : HeadTailBuffer where
  head := head
  tail := lastBytes (tailBudget maxBytes) behind
  omittedBytes := min (behind.length - tailBudget maxBytes) usizeMax

/-- The canonical summary of some bytes. -/
def summary (bytes : Bytes) : HeadTailBuffer :=
  tailOf maxBytes (bytes.take (headBudget maxBytes)) (bytes.drop (headBudget maxBytes))

end

/-- How a buffer comes about: from nothing, by a chunk, or by another buffer. -/
inductive Build where
  | empty
  | chunk (build : Build) (bytes : Bytes)
  | buffer (build : Build) (other : Build) (wrap : Nat)

namespace Build

/-- All bytes that were pushed, directly or in a buffer. -/
def bytes : Build → Bytes
  | empty => []
  | chunk build bytes => build.bytes ++ bytes
  | buffer build other _ => build.bytes ++ other.bytes

/-- The buffer that comes about. -/
def run (maxBytes : Nat) : Build → HeadTailBuffer
  | empty => HeadTailBuffer.empty
  | chunk build bytes => (build.run maxBytes).pushChunk maxBytes bytes
  | buffer build other wrap => (build.run maxBytes).pushBuffer maxBytes (other.run maxBytes) wrap

end Build

/-! ## Pushes -/

section

variable {maxBytes n : Nat} {head behind chunk a b : Bytes}

theorem length_lastBytes : (lastBytes n behind).length = min behind.length n := by
  unfold lastBytes
  rw [length_drop]
  omega

theorem lastBytes_of_le (h : behind.length ≤ n) : lastBytes n behind = behind := by
  unfold lastBytes
  rw [Nat.sub_eq_zero_of_le h, drop_zero]

theorem lastBytes_append_of_le (h : n ≤ b.length) : lastBytes n (a ++ b) = lastBytes n b := by
  unfold lastBytes
  rw [length_append, drop_append, drop_eq_nil_of_le, nil_append]
  · congr 1
    omega
  · omega

/-- **A push to the tail** keeps the last of all bytes behind the head, and counts the others. -/
theorem pushTail_tailOf :
    (tailOf maxBytes head behind).pushTail maxBytes chunk = tailOf maxBytes head (behind ++ chunk) := by
  unfold pushTail tailOf
  dsimp only
  rw [length_lastBytes]
  ext1
  · rfl
  · dsimp only
    unfold lastBytes
    rw [length_append, drop_append]
    split
    next hfits =>
      rw [drop_drop]
      congr 1
      · congr 1
        omega
      · rw [Nat.sub_eq_zero_of_le, drop_zero]
        omega
    next hfits =>
      have hgone : behind.drop (behind.length + chunk.length - tailBudget maxBytes) = [] := by
        apply drop_eq_nil_of_le
        omega
      rw [hgone, nil_append]
      congr 1
      omega
  · dsimp only
    unfold saturatingAdd
    rw [length_append]
    omega

theorem fillHead_summary {omitted : Nat} :
    fillHead maxBytes ⟨a.take (headBudget maxBytes), behind, omitted⟩ chunk =
      (⟨a.take (headBudget maxBytes) ++ chunk.take (headBudget maxBytes - a.length), behind, omitted⟩,
        chunk.drop (headBudget maxBytes - a.length)) := by
  have hremaining : headBudget maxBytes - min (headBudget maxBytes) a.length =
      headBudget maxBytes - a.length := by omega
  unfold fillHead
  dsimp only
  rw [length_take, hremaining]

/-- **A chunk** is added to what is summed up. -/
theorem pushChunk_summary : (summary maxBytes a).pushChunk maxBytes chunk = summary maxBytes (a ++ chunk) := by
  unfold pushChunk summary
  dsimp only [tailOf]
  rw [fillHead_summary]
  show (tailOf maxBytes (a.take (headBudget maxBytes) ++ chunk.take (headBudget maxBytes - a.length))
    (a.drop (headBudget maxBytes))).pushTail maxBytes _ = _
  rw [pushTail_tailOf, take_append, drop_append]
  rfl

theorem saturatingAdd_min {m n : Nat} : saturatingAdd (min m usizeMax) (min n usizeMax) = min (m + n) usizeMax := by
  unfold saturatingAdd
  omega

theorem takeHead_summary {omitted : Nat} :
    takeHead maxBytes ⟨a.take (headBudget maxBytes), behind, omitted⟩ (b.take (headBudget maxBytes)) =
      (⟨(a ++ b).take (headBudget maxBytes), behind, omitted⟩,
        (b.take (headBudget maxBytes)).drop (headBudget maxBytes - a.length)) := by
  have hhead : (b.take (headBudget maxBytes)).take (headBudget maxBytes - a.length) =
      b.take (headBudget maxBytes - a.length) := by
    rw [take_take]
    congr 1
    omega
  unfold takeHead
  dsimp only
  split
  next hempty =>
    -- nothing came before, or there is no room for a head at all
    have hlength := congrArg length hempty
    rw [length_take, length_nil] at hlength
    rw [take_append, hempty, nil_append, drop_eq_nil_of_le]
    · congr 3
      omega
    · rw [length_take]
      omega
  next => rw [fillHead_summary, hhead, take_append]

theorem takeTail_tailOf {overflow : Bytes} (wrap : Nat) :
    takeTail maxBytes ⟨head, lastBytes (tailBudget maxBytes) a,
        min (a.length - tailBudget maxBytes + (b.length - tailBudget maxBytes)) usizeMax⟩
        overflow (lastBytes (tailBudget maxBytes) b) wrap =
      tailOf maxBytes head (a ++ (overflow ++ b)) := by
  unfold takeTail
  rw [length_lastBytes]
  by_cases hfull : min b.length (tailBudget maxBytes) = tailBudget maxBytes
  · rw [if_pos hfull]
    unfold tailOf
    ext1
    · rfl
    · dsimp only
      rw [← append_assoc, lastBytes_append_of_le (by omega)]
    · dsimp only
      unfold saturatingAdd
      rw [length_lastBytes, length_append, length_append]
      omega
  · -- nothing of the other's was omitted
    have hb : b.length < tailBudget maxBytes := by omega
    rw [if_neg hfull, Nat.sub_eq_zero_of_le (Nat.le_of_lt hb), Nat.add_zero, ← tailOf, pushTail_tailOf,
      lastBytes_of_le (Nat.le_of_lt hb), ← append_assoc]
    dsimp only
    split
    next hempty =>
      have hlength := congrArg length hempty
      rw [tailOf, length_lastBytes, length_nil] at hlength
      obtain hnil : a ++ overflow = [] := eq_nil_of_length_eq_zero (by omega)
      rw [hnil, nil_append]
      unfold tailOf
      ext1
      · rfl
      · exact (lastBytes_of_le (Nat.le_of_lt hb)).symm
      · dsimp only [length_nil]
        omega
    next => rw [pushTail_tailOf, pushTail_tailOf, append_assoc, take_append_drop]

/-- **A buffer** is added as its bytes are, wherever its ring begins. -/
theorem pushBuffer_summary (wrap : Nat) :
    (summary maxBytes a).pushBuffer maxBytes (summary maxBytes b) wrap = summary maxBytes (a ++ b) := by
  -- what of the other head does not fit is behind the common head, and the other's rest behind that
  have hbehind : (a ++ b).drop (headBudget maxBytes) = a.drop (headBudget maxBytes) ++
      ((b.take (headBudget maxBytes)).drop (headBudget maxBytes - a.length) ++
        b.drop (headBudget maxBytes)) := by
    rw [drop_append]
    congr 1
    conv => lhs; rw [← take_append_drop (headBudget maxBytes) b, drop_append, length_take]
    congr 1
    by_cases hlong : b.length ≤ headBudget maxBytes
    · rw [drop_eq_nil_of_le hlong, drop_nil]
    · have hzero : headBudget maxBytes - a.length - min (headBudget maxBytes) b.length = 0 := by omega
      rw [hzero, drop_zero]
  unfold pushBuffer summary
  dsimp only [tailOf]
  rw [saturatingAdd_min, takeHead_summary]
  refine (takeTail_tailOf wrap).trans ?_
  rw [hbehind]
  rfl

theorem run_eq_summary (build : Build) : build.run maxBytes = summary maxBytes build.bytes := by
  induction build with
  | empty =>
    unfold Build.run Build.bytes summary tailOf lastBytes
    rw [take_nil, drop_nil, drop_nil, length_nil, Nat.zero_sub, Nat.zero_min]
    rfl
  | chunk build bytes ih =>
    rw [Build.run, Build.bytes, ih, pushChunk_summary]
  | buffer build other wrap ih ihOther =>
    rw [Build.run, Build.bytes, ih, ihOther, pushBuffer_summary]

end

/-- **The buffer sums up the concatenation.** For every capacity, however the bytes were pushed: the head is the
first of them up to its budget, the tail the last of the others up to its own, and the count that of the rest, as far
as a counter goes; and of two summaries the second is pushed to the first as its bytes would be. -/
theorem build_summary (maxBytes : Nat) (build : Build) :
    (build.run maxBytes).head = build.bytes.take (min build.bytes.length (headBudget maxBytes)) ∧
      (build.run maxBytes).tail =
        lastBytes (min (build.bytes.length - (build.run maxBytes).head.length) (tailBudget maxBytes))
          build.bytes ∧
      (build.run maxBytes).omittedBytes =
        min (build.bytes.length - (build.run maxBytes).head.length - (build.run maxBytes).tail.length)
          usizeMax ∧
      ∀ a b wrap, (summary maxBytes a).pushBuffer maxBytes (summary maxBytes b) wrap =
        summary maxBytes (a ++ b) := by
  rw [run_eq_summary]
  generalize build.bytes = bytes
  unfold summary tailOf
  dsimp only
  rw [length_lastBytes, length_take, length_drop]
  refine ⟨?_, ?_, ?_, fun a b wrap => pushBuffer_summary wrap⟩
  · rw [Nat.min_comm, ← take_eq_take_min]
  · unfold lastBytes
    rw [length_drop, drop_drop]
    by_cases hshort : bytes.length ≤ headBudget maxBytes
    · rw [drop_eq_nil_of_le (by omega), drop_eq_nil_of_le (by omega)]
    · congr 1
      omega
  · congr 1
    omega

/-- Three chunks, each as long as one can be, in a buffer that keeps nothing. -/
def longBuild : Build :=
  .chunk (.chunk (.chunk .empty (replicate isizeMax 0)) (replicate isizeMax 0))
    (replicate isizeMax 0)

/-- The count stops at the largest number of its type, before the number of bytes. -/
theorem omittedBytes_longBuild : (longBuild.run 0).omittedBytes <
      longBuild.bytes.length - (longBuild.run 0).head.length - (longBuild.run 0).tail.length := by
  have hlength : longBuild.bytes.length = isizeMax + isizeMax + isizeMax := by
    unfold longBuild
    rw [Build.bytes, Build.bytes, Build.bytes, Build.bytes, nil_append, length_append,
      length_append, length_replicate]
  have hhead : (longBuild.run 0).head.length = 0 := by
    rw [run_eq_summary]
    generalize longBuild.bytes = bytes
    exact (length_take ..).trans (Nat.zero_min _)
  have htail : (longBuild.run 0).tail.length = 0 := by
    rw [run_eq_summary]
    generalize longBuild.bytes = bytes
    exact length_lastBytes.trans (Nat.min_zero _)
  have hlong : usizeMax < isizeMax + isizeMax + isizeMax - 0 - 0 := by decide
  rw [hhead, htail, hlength, run_eq_summary]
  exact Nat.lt_of_le_of_lt (Nat.min_le_right _ _) hlong

end HeadTailBuffer

end NovumAgent.UnifiedExec
