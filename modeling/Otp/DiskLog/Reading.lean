import Otp.DiskLog.Progress

/-! What is written to a log is read from it. -/

namespace Otp.DiskLog

open List hiding tail
open Otp.Library

variable {md5 : Bytes → Digest}

/-- Size and magic number. -/
def header (x : Bytes) : Bytes := toBytes sizeSz x.length ++ bigMagicHead

variable (md5) in
/-- A big item has a checksum of its size. -/
def body (x : Bytes) : Bytes :=
  if x.length < minMd5Term then x else (md5 (toBytes sizeSz x.length)).1 ++ x

variable (md5) in
def item (x : Bytes) : Bytes := header x ++ body md5 x

theorem length_header (x : Bytes) : (header x).length = headerSz := by
  rfl

theorem headerSz_le_item (md5 : Bytes → Digest) (x : Bytes) : headerSz ≤ (item md5 x).length := by
  rw [item, length_append, length_header]
  exact Nat.le_add_right _ _

theorem length_item_small (small : x.length < minMd5Term) :
    (item md5 x).length = x.length + headerSz := by
  rw [item, body, if_pos small, length_append, length_header, Nat.add_comm]

theorem length_item_big (big : ¬ x.length < minMd5Term) :
    (item md5 x).length = x.length + headerSz + 16 := by
  rw [item, body, if_neg big, length_append, length_append, length_header, (md5 _).2]
  omega

theorem logl_eq : (logl md5 xs bs size).1 = bs ++ xs.flatMap (item md5) := by
  induction xs generalizing bs size with
  | nil => rw [logl, flatMap_nil, append_nil]
  | cons x xs ih =>
    rw [logl, ih, flatMap_cons, item, header, body]
    split <;> simp only [append_assoc]

theorem fwrite_bytes : (fwrite fdC b size).bytes = fdC.bytes ++ b := by
  unfold fwrite
  split
  case isTrue empty => rw [Cache.bytes, Cache.bytes, empty, append_nil]
  case isFalse =>
    split
    · simp only [Cache.bytes, append_assoc]
    · rw [writeCache_bytes]
      simp only [Cache.bytes, append_assoc]

theorem log_bytes : (log md5 fdC xs).bytes = fdC.bytes ++ xs.flatMap (item md5) := by
  rw [log, fwrite_bytes, logl_eq, nil_append]

/-- An item, or the beginning of one, as it is taken apart. -/
theorem header_read (small : x.length < 2 ^ 32) (tail : Bytes) :
    ¬ (header x ++ tail).length < headerSz ∧ ofBytes ((header x ++ tail).take sizeSz) = x.length ∧
      ofBytes (((header x ++ tail).drop sizeSz).take magicSz) = bigMagicInt ∧
      (header x ++ tail).drop headerSz = tail := by
  refine ⟨?_, ?_, rfl, drop_left' (length_header x)⟩
  · rw [length_append, length_header]
    omega
  · rw [header, append_assoc, take_left' (length_toBytes _ _), ofBytes_toBytes]
    exact Nat.mod_eq_of_lt small

theorem handleChunk_header (small : x.length < 2 ^ 32) (positive : n ≠ 0) (tail : Bytes)
    (pos : Nat) (ack : List Bytes) :
    handleChunk md5 (header x ++ tail) pos n ack =
      if x.length < minMd5Term then
        if x.length ≤ tail.length then
          handleChunk md5 (tail.drop x.length) pos (n - 1) (tail.take x.length :: ack)
        else some (⟨pos - (header x ++ tail).length, .noBytes (some (x.length + headerSz))⟩, ack)
      else if (md5 (toBytes sizeSz x.length)).1 <+: tail then
        if tail.length = 16 + x.length then some (⟨pos, .noBytes none⟩, tail.drop 16 :: ack)
        else some (⟨pos - (header x ++ tail).length, .noBytes (some (x.length + headerSz + 16))⟩,
          ack)
      else if 16 ≤ tail.length then none
      else some (⟨pos - (header x ++ tail).length, .noBytes none⟩, ack) := by
  obtain ⟨long, size, magic, rest⟩ := header_read small tail
  rw [handleChunk, if_neg long, if_neg positive]
  simp only [size, magic, rest, true_and, if_true]

/-- Bytes that start an item that is large enough for its header. -/
theorem header_prefix (part : b <+: item md5 x ++ more) (long : headerSz ≤ b.length) :
    ∃ tail, b = header x ++ tail ∧ tail <+: body md5 x ++ more := by
  rcases prefix_or_prefix_of_prefix part (prefix_append (header x) _) with short | ⟨tail, rfl⟩
  · have same := short.eq_of_length_le (by exact long)
    refine ⟨[], by rw [same, append_nil], nil_prefix⟩
  · exact ⟨tail, rfl, (prefix_append_right_inj _).mp part⟩

variable (md5) in
/-- The continuation goes on at the items in `rest`, the first of which starts at `start`. -/
def Follows (c : Continuation) (start : Nat) (rest : List Bytes) : Prop :=
  match c.b with
  | .binary b => b <+: rest.flatMap (item md5) ∧ headerSz ≤ b.length ∧ c.pos = start + b.length
  | .noBytes none => c.pos = start
  | .noBytes (some noBytes) =>
    c.pos = start ∧ ∃ x more, rest = x :: more ∧ noBytes = (item md5 x).length

/-- `done` was read, and `c` goes on behind it. -/
structure Reads (md5 : Bytes → Digest) (items : List Bytes) (start n : Nat) (c : Continuation)
    (done rest : List Bytes) : Prop where
  split : items = done ++ rest
  atMost : done.length ≤ n
  follows : Follows md5 c (start + (done.flatMap (item md5)).length) rest

theorem reads_nothing (follows : Follows md5 c start items) :
    Reads md5 items start n c [] items where
  split := rfl
  atMost := Nat.zero_le n
  follows := follows

theorem reads_cons (reads : Reads md5 items (start + (item md5 x).length) (n - 1) c done rest)
    (positive : n ≠ 0) : Reads md5 (x :: items) start n c (x :: done) rest where
  split := by rw [reads.split, cons_append]
  atMost := by
    have bound := reads.atMost
    rw [length_cons]
    omega
  follows := by
    have follows := reads.follows
    rwa [Nat.add_assoc, ← length_append, ← flatMap_cons] at follows

/-- A big item is read alone, or its beginning tells how much to read. -/
theorem handleChunk_big (big : ¬ x.length < minMd5Term) (small : x.length < 2 ^ 32)
    (positive : n ≠ 0) (inside : tail <+: body md5 x ++ items.flatMap (item md5)) (start : Nat)
    (ack : List Bytes) :
    ∃ done rest c, handleChunk md5 (header x ++ tail) (start + (header x ++ tail).length) n ack =
        some (c, done.reverse ++ ack) ∧
      Reads md5 (x :: items) start n c done rest := by
  have size := (md5 (toBytes sizeSz x.length)).2
  rw [body, if_neg big, append_assoc] at inside
  rw [handleChunk_header small positive, if_neg big]
  by_cases checked : (md5 (toBytes sizeSz x.length)).1 <+: tail
  · rw [if_pos checked]
    obtain ⟨after, rfl⟩ := checked
    rw [prefix_append_right_inj] at inside
    by_cases alone : after.length = x.length
    · have same : after = x :=
        (prefix_of_prefix_length_le inside (prefix_append x _) alone.le).eq_of_length alone
      cases same
      rw [if_pos (by rw [length_append, size]), drop_left' size]
      refine ⟨[x], items, _, rfl, rfl, Nat.one_le_iff_ne_zero.mpr positive, ?_⟩
      rw [flatMap_singleton, item, body, if_neg big]
      rfl
    · rw [if_neg (by rw [length_append]; omega), Nat.add_sub_cancel]
      exact ⟨[], x :: items, _, rfl, reads_nothing ⟨rfl, x, items, rfl, (length_item_big big).symm⟩⟩
  · have short : tail.length < 16 := by
      by_contra long
      exact checked (prefix_of_prefix_length_le (prefix_append _ _) inside (by omega))
    rw [if_neg checked, if_neg (by omega), Nat.add_sub_cancel]
    exact ⟨[], x :: items, _, rfl, reads_nothing rfl⟩

theorem handleChunk_items (items : List Bytes) (small : ∀ x ∈ items, x.length < 2 ^ 32) (b : Bytes)
    (part : b <+: items.flatMap (item md5)) (start n : Nat) (ack : List Bytes) :
    ∃ done rest c, handleChunk md5 b (start + b.length) n ack = some (c, done.reverse ++ ack) ∧
      Reads md5 items start n c done rest := by
  induction items generalizing b start n ack with
  | nil =>
    rw [flatMap_nil, prefix_nil] at part
    cases part
    refine ⟨[], [], ⟨start, .noBytes none⟩, ?_, reads_nothing rfl⟩
    rw [handleChunk]
    rfl
  | cons x items ih =>
    by_cases short : b.length < headerSz
    · refine ⟨[], x :: items, ⟨start, .noBytes none⟩, ?_, reads_nothing rfl⟩
      rw [handleChunk, if_pos short, Nat.add_sub_cancel]
      rfl
    by_cases positive : n = 0
    · refine ⟨[], x :: items, ⟨start + b.length, .binary b⟩, ?_,
        reads_nothing ⟨part, Nat.le_of_not_lt short, rfl⟩⟩
      rw [handleChunk, if_neg short, if_pos positive]
      rfl
    obtain ⟨tail, rfl, inside⟩ := header_prefix part (Nat.le_of_not_lt short)
    by_cases plain : x.length < minMd5Term
    · rw [handleChunk_header (small x mem_cons_self) positive, if_pos plain]
      rw [body, if_pos plain] at inside
      by_cases whole : x.length ≤ tail.length
      · obtain ⟨after, rfl⟩ := prefix_of_prefix_length_le (prefix_append x _) inside whole
        rw [if_pos whole, take_left, drop_left]
        rw [prefix_append_right_inj] at inside
        obtain ⟨done, rest, c, handled, reads⟩ :=
          ih (fun y member => small y (mem_cons_of_mem x member)) after inside
          (start + (item md5 x).length) (n - 1) (x :: ack)
        refine ⟨x :: done, rest, c, ?_, reads_cons reads positive⟩
        have place : start + (header x ++ (x ++ after)).length =
          start + (item md5 x).length + after.length := by
          rw [length_item_small plain, length_append, length_append, length_header]
          omega
        rw [place, handled]
        simp only [reverse_cons, append_assoc, cons_append, nil_append]
      · refine ⟨[], x :: items, ⟨start, .noBytes (some (x.length + headerSz))⟩, ?_,
          reads_nothing ⟨rfl, x, items, rfl, (length_item_small plain).symm⟩⟩
        rw [if_neg whole, Nat.add_sub_cancel]
        rfl
    · exact handleChunk_big plain (small x mem_cons_self) positive inside start ack

section Chunk

variable {fdC : Cache} {done rest : List Bytes} {head : Bytes}

/-- A log of some items behind the head of the file. -/
def Holds (md5 : Bytes → Digest) (fdC : Cache) (items : List Bytes) : Prop :=
  ∃ head, head.length = headSz ∧ fdC.bytes = head ++ items.flatMap (item md5)

theorem holds_content (holds : Holds md5 fdC items) : fdC.content = items.flatMap (item md5) := by
  obtain ⟨head, size, same⟩ := holds
  rw [Cache.content, same, drop_left' size]

theorem holds_writeCache (holds : Holds md5 fdC items) : Holds md5 (writeCache fdC) items := by
  obtain ⟨head, size, same⟩ := holds
  exact ⟨head, size, by rw [writeCache_bytes, same]⟩

/-- What is read at the beginning of an item. -/
theorem readChunk_items (holds : Holds md5 fdC (done ++ rest)) :
    readChunk fdC (done.flatMap (item md5)).length maxBytes =
      (writeCache fdC, if (rest.flatMap (item md5)).take maxBytes = [] then none
        else some ((rest.flatMap (item md5)).take maxBytes)) := by
  rw [readChunk_eq_ro, readChunkRo_eq, holds_content holds, flatMap_append, drop_left]

/-- An answer with items: at least one and at most `n`. -/
def Answers (md5 : Bytes → Digest) (done rest : List Bytes) (n : Nat) (fdC : Cache)
    (c : Continuation) (taken : List Bytes) : Prop :=
  taken ≠ [] ∧ taken.length ≤ n ∧ ∃ left, rest = taken ++ left ∧ Holds md5 fdC (done ++ rest) ∧
    Follows md5 c ((done ++ taken).flatMap (item md5)).length left

theorem answers_of_reads (reads : Reads md5 rest (done.flatMap (item md5)).length n c taken left)
    (some : taken ≠ []) (holds : Holds md5 fdC (done ++ rest)) :
    Answers md5 done rest n fdC c taken := by
  refine ⟨some, reads.atMost, left, reads.split, holds, ?_⟩
  rw [flatMap_append, length_append]
  exact reads.follows

theorem doHandleChunk_some (handled : handleChunk md5 b pos n [] = some (c, acc))
    (nonempty : acc ≠ []) : doHandleChunk md5 again fdC pos b n = some (fdC, .ok c acc) := by
  rw [doHandleChunk, handled]
  cases acc with
  | nil => exact absurd rfl nonempty
  | cons x acc => rfl

theorem chunk_read (holds : Holds md5 fdC (done ++ rest))
    (bin : b = (rest.flatMap (item md5)).take (maxNoBytes noBytes)) (long : headerSz ≤ b.length)
    (enough : noBytes.all (· ≤ b.length)) (calls n : Nat) :
    chunk md5 (calls + 1) fdC (done.flatMap (item md5)).length (.noBytes noBytes) n =
      doHandleChunk md5 (chunk md5 calls) (writeCache fdC)
        ((done.flatMap (item md5)).length + b.length) b n := by
  have nonempty : b ≠ [] := by
    rintro rfl
    exact absurd long (by decide)
  rw [chunk, readChunk_items holds, ← bin, if_neg nonempty]
  dsimp only
  rw [if_neg (Nat.not_lt.mpr long), if_pos enough]

theorem Follows.nil (follows : Follows md5 ⟨pos, b⟩ start []) :
    pos = start ∧ b = .noBytes none := by
  cases b with
  | binary b =>
    obtain ⟨part, long, -⟩ := follows
    rw [flatMap_nil, prefix_nil] at part
    cases part
    exact absurd long (by decide)
  | noBytes noBytes =>
    cases noBytes with
    | none => exact ⟨follows, rfl⟩
    | some noBytes =>
      obtain ⟨-, x, more, next, -⟩ := follows
      cases next

theorem Follows.place (follows : Follows md5 ⟨pos, .noBytes noBytes⟩ start (x :: more)) :
    pos = start ∧ noBytes.all (· ≤ (item md5 x).length) := by
  cases noBytes with
  | none => exact ⟨follows, rfl⟩
  | some noBytes =>
    obtain ⟨place, _, _, ⟨⟩, rfl⟩ := follows
    exact ⟨place, by simp⟩

/-- An answer has items. -/
theorem chunk_takes (small : ∀ x ∈ rest, x.length < 2 ^ 32) (nonempty : rest ≠ [])
    (holds : Holds md5 fdC (done ++ rest))
    (follows : Follows md5 ⟨pos, b⟩ (done.flatMap (item md5)).length rest)
    (answered : chunk md5 calls fdC pos b n = some (newFdC, reply)) :
    ∃ c taken, reply = .ok c taken.reverse ∧ Answers md5 done rest n newFdC c taken := by
  induction calls generalizing fdC pos b with
  | zero => cases answered
  | succ calls ih =>
    have handle {fdC : Cache} {b : Bytes} (holds : Holds md5 fdC (done ++ rest))
        (part : b <+: rest.flatMap (item md5))
        (answered : doHandleChunk md5 (chunk md5 calls) fdC
          ((done.flatMap (item md5)).length + b.length) b n =
          some (newFdC, reply)) :
        ∃ c taken, reply = .ok c taken.reverse ∧ Answers md5 done rest n newFdC c taken := by
      obtain ⟨taken, left, c, handled, reads⟩ :=
        handleChunk_items rest small b part (done.flatMap (item md5)).length n []
      rw [append_nil] at handled
      by_cases some : taken = []
      · cases some
        have split : rest = left := reads.split
        cases split
        rw [doHandleChunk_none handled] at answered
        exact ih holds reads.follows answered
      · rw [doHandleChunk_some handled (by simpa using some)] at answered
        cases answered
        exact ⟨c, taken, rfl, answers_of_reads reads some holds⟩
    cases b with
    | binary b =>
      obtain ⟨part, long, place⟩ := follows
      have same : pos = (done.flatMap (item md5)).length + b.length := place
      subst same
      rw [chunk, if_neg (Nat.not_lt.mpr long)] at answered
      exact handle holds part answered
    | noBytes noBytes =>
      obtain ⟨x, more, rfl⟩ := exists_cons_of_ne_nil nonempty
      obtain ⟨rfl, known⟩ := follows.place
      obtain ⟨b, bin⟩ : ∃ b, b = ((x :: more).flatMap (item md5)).take (maxNoBytes noBytes) :=
        ⟨_, rfl⟩
      have size : min (maxNoBytes noBytes) (item md5 x).length ≤ b.length := by
        rw [bin, length_take, flatMap_cons, length_append]
        omega
      have least := headerSz_le_item md5 x
      have read := le_maxNoBytes noBytes
      have long : headerSz ≤ b.length :=
        Nat.le_trans (Nat.le_min.mpr ⟨Nat.le_trans (by decide) read, least⟩) size
      have enough : noBytes.all (· ≤ b.length) := by
        cases noBytes with
        | none => rfl
        | some noBytes =>
          simp only [Option.all_some, decide_eq_true_eq] at known ⊢
          exact Nat.le_trans (Nat.le_min.mpr ⟨Nat.le_max_left _ _, known⟩) size
      rw [chunk_read holds bin long enough] at answered
      exact handle (holds_writeCache holds) (bin ▸ take_prefix _ _) answered

theorem not_cut (small : x.length < 2 ^ 32) (more : Bytes) : ¬ Cut md5 17 (item md5 x ++ more) := by
  intro cut
  have size := cut.big
  have unchecked := cut.unchecked
  rw [item, append_assoc] at size unchecked
  obtain ⟨-, length, -, rest⟩ := header_read small (body md5 x ++ more)
  rw [length] at size unchecked
  rw [rest, body, if_neg size, append_assoc] at unchecked
  exact unchecked (prefix_append _ _)

/-- From any continuation, three calls give an item. -/
theorem chunk_answers (small : ∀ x ∈ rest, x.length < 2 ^ 32) (holds : Holds md5 fdC (done ++ rest))
    (positive : n ≠ 0) (nonempty : rest ≠ [])
    (follows : Follows md5 ⟨pos, b⟩ (done.flatMap (item md5)).length rest) :
    ∃ newFdC c taken, chunk md5 (calls + 3) fdC pos b n = some (newFdC, .ok c taken.reverse) ∧
      Answers md5 done rest n newFdC c taken := by
  have content : fdC.content.drop (done.flatMap (item md5)).length = rest.flatMap (item md5) := by
    rw [holds_content holds, flatMap_append, drop_left]
  have uncut : ¬ Cut md5 17 (rest.flatMap (item md5)) := by
    obtain ⟨x, more, rfl⟩ := exists_cons_of_ne_nil nonempty
    exact not_cut (small x mem_cons_self) _
  have here : Continuation.At ⟨pos, b⟩ fdC.content (done.flatMap (item md5)).length := by
    cases b with
    | binary b => exact ⟨content ▸ follows.1, follows.2⟩
    | noBytes noBytes =>
      obtain ⟨x, more, rfl⟩ := exists_cons_of_ne_nil nonempty
      exact follows.place.1
  obtain ⟨⟨newFdC, reply⟩, answered⟩ := Option.isSome_iff_exists.mp
    (chunk_isSome (chunkReadOnly_answers here (content ▸ uncut) positive))
  obtain ⟨c, taken, rfl, answers⟩ := chunk_takes small nonempty holds follows answered
  exact ⟨newFdC, c, taken, answered, answers⟩

/-- At the end of the log. -/
theorem chunk_end (holds : Holds md5 fdC done)
    (follows : Follows md5 ⟨pos, b⟩ (done.flatMap (item md5)).length []) (calls n : Nat) :
    chunk md5 (calls + 1) fdC pos b n = some (writeCache fdC, .eof) ∧
      chunkReadOnly md5 (calls + 1) fdC pos b n = some (writeCache fdC, .eof) := by
  rw [← append_nil done] at holds
  obtain ⟨rfl, rfl⟩ := follows.nil
  rw [chunk, chunkReadOnly, ← readChunk_eq_ro, readChunk_items holds]
  exact ⟨rfl, rfl⟩

end Chunk

/-- What happens to a log before it is read. -/
inductive Op where
  | log (x : List Bytes)
  | writeCache
  | sync

variable (md5) in
def Op.run (fdC : Cache) : Op → Cache
  | .log x => DiskLog.log md5 fdC x
  | .writeCache => DiskLog.writeCache fdC
  | .sync => DiskLog.writeCache fdC

/-- The binaries that were written. -/
def Op.written : Op → List Bytes
  | .log x => x
  | .writeCache => []
  | .sync => []

theorem run_holds {op : Op} (holds : Holds md5 fdC items) :
    Holds md5 (op.run md5 fdC) (items ++ op.written) := by
  cases op with
  | log x =>
    obtain ⟨head, size, same⟩ := holds
    exact ⟨head, size, by rw [Op.run, log_bytes, same, append_assoc, Op.written, flatMap_append]⟩
  | writeCache | sync =>
    rw [Op.written, append_nil]
    exact holds_writeCache holds

theorem foldl_run_holds {ops : List Op} (holds : Holds md5 fdC items) :
    Holds md5 (ops.foldl (Op.run md5) fdC) (items ++ ops.flatMap Op.written) := by
  induction ops generalizing fdC items with
  | nil => rwa [flatMap_nil, append_nil]
  | cons op ops ih =>
    rw [flatMap_cons, ← append_assoc]
    exact ih (run_holds holds)

/-- Call after call from a continuation, with the item counts given, until there is no more. -/
def chunks (md5 : Bytes → Digest) (calls : Nat) : List Nat → Cache → Continuation →
    Option (List Bytes × Reply)
  | [], _, c => some ([], .ok c [])
  | n :: counts, fdC, c => do
    let (fdC, reply) ← chunk md5 calls fdC c.pos c.b n
    match reply with
    | .ok c ack =>
      let (more, last) ← chunks md5 calls counts fdC c
      some (ack.reverse ++ more, last)
    | other => some ([], other)

/-- With the number of bad bytes. -/
def chunksReadOnly (md5 : Bytes → Digest) (calls : Nat) :
    List Nat → Cache → Continuation → Option (List Bytes × Nat × ReplyRo)
  | [], _, c => some ([], 0, .ok c [] 0)
  | n :: counts, fdC, c => do
    let (fdC, reply) ← chunkReadOnly md5 calls fdC c.pos c.b n
    match reply with
    | .ok c ack bad =>
      let (more, rest, last) ← chunksReadOnly md5 calls counts fdC c
      some (ack.reverse ++ more, bad + rest, last)
    | other => some ([], 0, other)

theorem chunks_rest (small : ∀ x ∈ rest, x.length < 2 ^ 32) (positive : ∀ n ∈ counts, n ≠ 0)
    (enough : rest.length < counts.length) (holds : Holds md5 fdC (done ++ rest))
    (follows : Follows md5 c (done.flatMap (item md5)).length rest) :
    chunks md5 (calls + 3) counts fdC c = some (rest, .eof) ∧
      chunksReadOnly md5 (calls + 3) counts fdC c = some (rest, 0, .eof) := by
  induction counts generalizing fdC done rest c with
  | nil => exact absurd enough (Nat.not_lt_zero _)
  | cons n counts ih =>
    by_cases finished : rest = []
    · cases finished
      rw [append_nil] at holds
      obtain ⟨last, lastRo⟩ := chunk_end holds follows (calls + 2) n
      rw [chunks, chunksReadOnly, last, lastRo]
      exact ⟨rfl, rfl⟩
    · obtain ⟨newFdC, next, taken, answered, some, -, left, split, still, behind⟩ :=
        chunk_answers small holds (positive n mem_cons_self) finished follows
      cases split
      have fewer : left.length < counts.length := by
        have one := length_pos_iff.mpr some
        rw [length_append, length_cons] at enough
        omega
      rw [← append_assoc] at still
      obtain ⟨rest, restRo⟩ := ih (fun x member => small x (mem_append_right _ member))
        (fun n member => positive n (mem_cons_of_mem _ member)) fewer still behind
      rw [chunks, chunksReadOnly, answered, chunkReadOnly_of_ok answered]
      simp only [Option.bind_eq_bind, Option.bind_some, rest, restRo, reverse_reverse, and_self]

/-- Whatever is written in whatever groups, and whenever the cache is, is read from the start of
the log, with no bad bytes, up to the end of the log. -/
theorem chunks_written (md5 : Bytes → Digest) (ops : List Op)
    (small : ∀ x ∈ ops.flatMap Op.written, x.length < 2 ^ 32) (counts : List Nat)
    (positive : ∀ n ∈ counts, n ≠ 0) (enough : (ops.flatMap Op.written).length < counts.length)
    (calls : Nat) (least : 3 ≤ calls) :
    chunks md5 calls counts (ops.foldl (Op.run md5) newIntFile) ⟨0, .noBytes none⟩ =
        some (ops.flatMap Op.written, .eof) ∧
      chunksReadOnly md5 calls counts (ops.foldl (Op.run md5) newIntFile) ⟨0, .noBytes none⟩ =
        some (ops.flatMap Op.written, 0, .eof) := by
  obtain ⟨calls, rfl⟩ := Nat.exists_eq_add_of_le' least
  have holds : Holds md5 newIntFile [] := ⟨logMagic ++ opened, rfl, rfl⟩
  have start : Follows md5 ⟨0, .noBytes none⟩ (([] : List Bytes).flatMap (item md5)).length
    (ops.flatMap Op.written) := rfl
  exact chunks_rest small positive enough (foldl_run_holds holds) start

/-- Three items in two groups, read one by one. One is empty, and one has the big header. -/
theorem chunks_written_large :
    let large : Bytes := replicate 65528 7
    let ops := [Op.log [[1], large], .writeCache, .log [[]]]
    minMd5Term ≤ large.length ∧ (∀ x ∈ ops.flatMap Op.written, x.length < 2 ^ 32) ∧
      chunks (fun _ => ⟨replicate 16 0, rfl⟩) 3 [1, 1, 1, 1]
        (ops.foldl (Op.run fun _ => ⟨replicate 16 0, rfl⟩) newIntFile) ⟨0, .noBytes none⟩ =
          some ([[1], large, []], .eof) := by
  intro large ops
  have length : large.length = 65528 := length_replicate
  have written : ops.flatMap Op.written = [[1], large, []] := rfl
  have small : ∀ x ∈ ops.flatMap Op.written, x.length < 2 ^ 32 := by
    rw [written]
    simp [length]
  have read := (chunks_written (fun _ => ⟨replicate 16 0, rfl⟩) ops small [1, 1, 1, 1] (by decide)
    (by rw [written]; decide) 3 (by decide)).1
  exact ⟨length.ge, small, written ▸ read⟩

end Otp.DiskLog
