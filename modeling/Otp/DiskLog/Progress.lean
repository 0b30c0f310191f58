import Otp.DiskLog.Log

/-! Reading a damaged log comes to an end, unless the log ends in the header of a big item: such a
header is read again and again for a checksum that is not there. -/

namespace Otp.DiskLog

open List Otp.Library

variable {md5 : Bytes → Digest}

/-- How many bytes the first item takes, from its header. -/
def wanted (b : Bytes) : Nat :=
  let size := ofBytes (b.take sizeSz)
  if ofBytes ((b.drop sizeSz).take magicSz) = bigMagicInt ∧ ¬ size < minMd5Term then
    size + headerSz + 16
  else size + headerSz

/-- The header of a big item and fewer than `limit` bytes that are not its checksum. -/
structure Cut (md5 : Bytes → Digest) (limit : Nat) (b : Bytes) : Prop where
  long : headerSz ≤ b.length
  short : b.length < headerSz + limit
  magic : ofBytes ((b.drop sizeSz).take magicSz) = bigMagicInt
  big : ¬ ofBytes (b.take sizeSz) < minMd5Term
  unchecked : ¬ (md5 (toBytes sizeSz (ofBytes (b.take sizeSz)))).1 <+: b.drop headerSz

/-- The file and the cache together. -/
def Cache.bytes (fdC : Cache) : Bytes := fdC.fd ++ fdC.c

@[simp]
theorem writeCache_bytes : (writeCache fdC).bytes = fdC.bytes := by
  unfold writeCache Cache.bytes
  split
  case isTrue empty => rw [empty]
  case isFalse => exact append_nil _

theorem writeCache_fd : (writeCache fdC).fd = fdC.bytes := by
  unfold writeCache Cache.bytes
  split
  case isTrue empty => rw [empty, append_nil]
  case isFalse => rfl

theorem writeCache_writeCache : writeCache (writeCache fdC) = writeCache fdC := by
  unfold writeCache
  split <;> rfl

/-- What follows the head of the file. -/
def Cache.content (fdC : Cache) : Bytes := fdC.bytes.drop headSz

/-- The continuation goes on at `start`. -/
def Continuation.At (c : Continuation) (content : Bytes) (start : Nat) : Prop :=
  match c.b with
  | .binary b => b <+: content.drop start ∧ headerSz ≤ b.length ∧ c.pos = start + b.length
  | .noBytes _ => c.pos = start

section

variable {content b : Bytes} {start : Nat} {ack : List Bytes}

theorem handleChunkRo_count (handled : handleChunkRo md5 b pos n ack bad = (c, acks, bads)) :
    ack.length + bad ≤ acks.length + bads := by
  fun_induction handleChunkRo md5 b pos n ack bad
  case case3 ih => exact Nat.le_trans (Nat.add_le_add_right (Nat.le_succ _) _) (ih handled)
  case case7 ih => exact Nat.le_of_succ_le (ih handled)
  case case9 ih => exact Nat.le_trans (Nat.add_le_add_right (Nat.le_succ _) _) (ih handled)
  case case11 ih => exact Nat.le_of_succ_le (ih handled)
  all_goals
    cases handled
    simp

/-- The continuation moves on if there is more than before. -/
def Moves (content b : Bytes) (start old new : Nat) (c : Continuation) : Prop :=
  ∃ next, c.At content next ∧ start ≤ next ∧ next ≤ start + b.length ∧ (next = start → new = old)

theorem moves_stays (place : pos = start + b.length) :
    Moves content b start old old ⟨pos - b.length, .noBytes noBytes⟩ := by
  refine ⟨start, ?_, Nat.le_refl _, Nat.le_add_right _ _, fun _ => rfl⟩
  rw [place, Nat.add_sub_cancel]
  rfl

/-- Some bytes are taken, and the rest is looked at. -/
theorem moves_behind (part : b <+: content.drop start) (place : pos = start + b.length)
    (split : rest = b.drop k) (inside : 0 < k ∧ k ≤ b.length)
    (ih : ∀ {start : Nat}, rest <+: content.drop start → pos = start + rest.length →
      Moves content rest start middle new c) : Moves content b start old new c := by
  have length : rest.length = b.length - k := by rw [split, length_drop]
  have behind : rest <+: content.drop (start + k) := by
    rw [split, ← drop_drop]
    exact part.drop k
  obtain ⟨next, here, low, high, -⟩ := ih behind (by omega)
  exact ⟨next, here, by omega, by omega, by omega⟩

theorem handleChunkRo_moves (part : b <+: content.drop start) (place : pos = start + b.length)
    (handled : handleChunkRo md5 b pos n ack bad = (c, acks, bads)) :
    Moves content b start (ack.length + bad) (acks.length + bads) c := by
  have inside {b : Bytes} {k : Nat} (long : ¬ b.length < headerSz)
      (whole : k ≤ (b.drop headerSz).length) :
      0 < headerSz + k ∧ headerSz + k ≤ b.length := by
    simp only [length_drop, headerSz] at *
    omega
  fun_induction handleChunkRo md5 b pos n ack bad generalizing start
  case case1 =>
    cases handled
    exact moves_stays place
  case case2 long =>
    cases handled
    exact ⟨start, ⟨part, Nat.le_of_not_lt long, place⟩, Nat.le_refl _, Nat.le_add_right _ _,
      fun _ => rfl⟩
  all_goals rename ¬ _ < headerSz => long
  case case3 whole ih =>
    exact moves_behind part place drop_drop (inside long whole) fun part place =>
      ih part place handled
  case case5 =>
    cases handled
    refine ⟨pos, rfl, by omega, place.le, fun same => ?_⟩
    simp only [headerSz] at long
    omega
  case case7 whole ih =>
    exact moves_behind part place drop_drop (inside long whole) fun part place =>
      ih part place handled
  case case9 whole ih =>
    exact moves_behind part place drop_drop (inside long whole) fun part place =>
      ih part place handled
  case case11 ih =>
    refine moves_behind part place rfl ⟨Nat.one_pos, ?_⟩ fun part place => ih part place handled
    simp only [headerSz] at long
    omega
  all_goals
    cases handled
    exact moves_stays place

/-- A buffer from which nothing is taken says how much to read, or its header is cut off. -/
theorem handleChunkRo_stuck (long : ¬ b.length < headerSz) (positive : n ≠ 0)
    (handled : handleChunkRo md5 b pos n [] 0 = (c, [], 0)) :
    c = ⟨pos - b.length, .noBytes (some (wanted b))⟩ ∧
        (b.length < wanted b ∨ maxChunkSize ≤ wanted b ∧ b.length ≠ wanted b) ∨
      c = ⟨pos - b.length, .noBytes none⟩ ∧ Cut md5 17 b := by
  have size : b.length = headerSz + (b.drop headerSz).length := by
    rw [length_drop]
    omega
  rw [handleChunkRo, if_neg long, if_neg positive] at handled
  rw [wanted]
  dsimp only at handled ⊢
  split at handled
  case isTrue plain =>
    rw [if_neg (fun big => big.2 plain.2)]
    split at handled
    · cases handleChunkRo_count handled
    · cases handled
      exact .inl ⟨rfl, .inl (by omega)⟩
  case isFalse plain =>
  split at handled
  case isTrue magic =>
    have big := fun less => plain ⟨magic, less⟩
    rw [if_pos ⟨magic, big⟩]
    split at handled
    · split at handled
      · cases handled
      · cases handled
        refine .inl ⟨rfl, .inr ⟨?_, by omega⟩⟩
        simp only [minMd5Term, maxChunkSize, headerSz] at *
        omega
    · rename_i unchecked
      split at handled
      · cases handleChunkRo_count handled
      · cases handled
        exact .inr ⟨rfl, by omega, by omega, magic, big, unchecked⟩
  case isFalse other =>
    rw [if_neg (fun big => other big.1)]
    split at handled
    · split at handled
      · cases handleChunkRo_count handled
      · cases handled
        exact .inl ⟨rfl, .inl (by omega)⟩
    · cases handleChunkRo_count handled

end

theorem handleChunkRo_of_handleChunk (b : Bytes) (pos n : Nat) (ack : List Bytes) (bad : Nat)
    (handled : handleChunk md5 b pos n ack = some (c, acks)) :
    handleChunkRo md5 b pos n ack bad = (c, acks, bad) := by
  fun_induction handleChunk md5 b pos n ack
  all_goals rw [handleChunkRo]
  case case1 short =>
    cases handled
    exact if_pos short
  case case2 long =>
    cases handled
    exact (if_neg long).trans (if_pos rfl)
  all_goals rename ¬ _ < headerSz => long
  all_goals rename ¬ _ = 0 => positive
  all_goals rw [if_neg long, if_neg positive]
  case case3 plain whole ih => exact (if_pos plain).trans ((if_pos whole).trans (ih handled))
  case case4 plain part =>
    cases handled
    exact (if_pos plain).trans (if_neg part)
  case case5 plain big checked alone =>
    cases handled
    exact (if_neg plain).trans ((if_pos big).trans ((if_pos checked).trans (if_pos alone)))
  case case6 plain big checked other =>
    cases handled
    exact (if_neg plain).trans ((if_pos big).trans ((if_pos checked).trans (if_neg other)))
  case case7 => cases handled
  case case8 plain big checked short =>
    cases handled
    exact (if_neg plain).trans
      ((if_pos big).trans ((if_neg checked).trans
      (if_neg fun longer => short (Nat.le_of_succ_le longer))))
  case case9 plain big old whole ih =>
    exact (if_neg plain).trans
      ((if_neg big).trans ((if_pos old).trans ((if_pos whole).trans (ih handled))))
  case case10 plain big old part =>
    cases handled
    exact (if_neg plain).trans ((if_neg big).trans ((if_pos old).trans (if_neg part)))
  case case11 => cases handled

theorem readChunk_eq_ro (fdC : Cache) (pos maxBytes : Nat) :
    readChunk fdC pos maxBytes = readChunkRo fdC pos maxBytes := by
  simp only [readChunk, readChunkRo, pread, writeCache_writeCache]

theorem doHandleChunk_none (handled : handleChunk md5 b pos n [] = some (c, [])) :
    doHandleChunk md5 again fdC pos b n = again fdC c.pos c.b n := by
  rw [doHandleChunk, handled]

/-- What `chunk` answers with items is the answer for a log that cannot be written. -/
inductive Agrees : Option (Cache × Reply) → Option (Cache × ReplyRo) → Prop
  | none : Agrees none none
  | ok : Agrees (some (fdC, .ok c acc)) (some (fdC, .ok c acc 0))
  | stops (last : ∀ c acc, reply ≠ .ok c acc) : Agrees (some (fdC, reply)) answer

theorem chunk_agrees (calls : Nat) (fdC : Cache) (pos : Nat) (b : Buffer) :
    Agrees (chunk md5 calls fdC pos b n) (chunkReadOnly md5 calls fdC pos b n) := by
  induction calls generalizing fdC pos b with
  | zero => exact .none
  | succ calls ih =>
    have handle (fdC : Cache) (pos : Nat) (b : Bytes) :
        Agrees (doHandleChunk md5 (chunk md5 calls) fdC pos b n)
          (doHandleChunkRo md5 (chunkReadOnly md5 calls) fdC pos b n) := by
      unfold doHandleChunk
      split
      case h_1 => exact .stops nofun
      case h_2 next handled =>
        rw [doHandleChunkRo, handleChunkRo_of_handleChunk _ _ _ _ 0 handled]
        exact ih _ _ _
      case h_3 next found nonempty handled =>
        rw [doHandleChunkRo, handleChunkRo_of_handleChunk _ _ _ _ 0 handled]
        cases found with
        | nil => exact (nonempty rfl).elim
        | cons x acc => exact .ok
    cases b with
    | binary b =>
      rw [chunk, chunkReadOnly]
      split
      · exact .stops nofun
      · exact handle _ _ _
    | noBytes noBytes =>
      rw [chunk, chunkReadOnly, readChunk_eq_ro]
      split
      · split
        · exact .stops nofun
        · split
          · exact handle _ _ _
          · exact .stops nofun
      · split <;> exact .stops nofun

theorem chunkReadOnly_of_ok (answered : chunk md5 calls fdC pos b n = some (newFdC, .ok c acc)) :
    chunkReadOnly md5 calls fdC pos b n = some (newFdC, .ok c acc 0) := by
  have agrees := @chunk_agrees md5 n calls fdC pos b
  rw [answered] at agrees
  generalize chunkReadOnly md5 calls fdC pos b n = answerRo at agrees
  cases agrees with
  | ok => rfl
  | stops last => exact absurd rfl (last c acc)

theorem chunk_isSome (some : (chunkReadOnly md5 calls fdC pos b n).isSome) :
    (chunk md5 calls fdC pos b n).isSome := by
  have agrees := @chunk_agrees md5 n calls fdC pos b
  generalize chunk md5 calls fdC pos b n = answer at agrees
  generalize chunkReadOnly md5 calls fdC pos b n = answerRo at agrees some
  cases agrees with
  | none => exact some
  | _ => rfl

theorem readChunkRo_eq (fdC : Cache) (pos maxBytes : Nat) :
    readChunkRo fdC pos maxBytes = (writeCache fdC, if (fdC.content.drop pos).take maxBytes =
      [] then none
      else some ((fdC.content.drop pos).take maxBytes)) := by
  have here : (writeCache fdC).fd.drop (pos + headSz) = fdC.content.drop pos := by
    rw [writeCache_fd, Cache.content, drop_drop, Nat.add_comm]
  rw [readChunkRo, pread]
  simp only [here]

theorem chunkReadOnly_read (bin : b = (fdC.content.drop pos).take (maxNoBytes noBytes)) :
    chunkReadOnly md5 (calls + 1) fdC pos (.noBytes noBytes) n =
      if b = [] then some (writeCache fdC, .eof)
      else if b.length < headerSz then
        some (writeCache fdC, .ok ⟨pos + b.length, .noBytes none⟩ [] b.length)
      else if noBytes.all (· ≤ b.length) then
        doHandleChunkRo md5 (chunkReadOnly md5 calls) (writeCache fdC) (pos + b.length) b n
      else some (writeCache fdC, .ok ⟨pos + b.length, .noBytes none⟩ [] (b.length - headerSz)) := by
  rw [chunkReadOnly, readChunkRo_eq, ← bin]
  by_cases empty : b = []
  · rw [if_pos empty, if_pos empty]
  · rw [if_neg empty, if_neg empty]

@[simp]
theorem writeCache_content : (writeCache fdC).content = fdC.content := by
  rw [Cache.content, writeCache_bytes, Cache.content]

/-- An answer with a continuation is further on in the same log. -/
def Further (fdC newFdC : Cache) (start : Nat) (c : Continuation) : Prop :=
  newFdC.bytes = fdC.bytes ∧ ∃ next, c.At fdC.content next ∧ start < next ∧
  next ≤ fdC.content.length

theorem chunkReadOnly_further (here : Continuation.At ⟨pos, b⟩ fdC.content start)
    (answered : chunkReadOnly md5 calls fdC pos b n = some (newFdC, .ok c acks bad)) :
    Further fdC newFdC start c := by
  induction calls generalizing fdC pos b start with
  | zero => cases answered
  | succ calls ih =>
    have handle {fdC : Cache} {b : Bytes} (part : b <+: fdC.content.drop start)
        (answered : doHandleChunkRo md5 (chunkReadOnly md5 calls) fdC (start + b.length) b n =
          some (newFdC, .ok c acks bad)) : Further fdC newFdC start c := by
      unfold doHandleChunkRo at answered
      split at answered
      case h_1 handled =>
        obtain ⟨place, here, low, -⟩ := handleChunkRo_moves part rfl handled
        obtain ⟨same, next, at_, more, last⟩ := ih here answered
        exact ⟨same, next, at_, Nat.lt_of_le_of_lt low more, last⟩
      case h_2 some handled =>
        cases answered
        obtain ⟨next, here, low, high, same⟩ := handleChunkRo_moves part rfl handled
        have inside := part.length_le
        rw [length_drop] at inside
        have moved : next ≠ start := fun none => by
          have nothing := same none
          simp only [length_nil, Nat.add_zero, Nat.add_eq_zero_iff, length_eq_zero_iff] at nothing
          exact some nothing.1 nothing.2
        exact ⟨rfl, next, here, by omega, by omega⟩
    cases b with
    | binary b =>
      obtain ⟨part, -, place⟩ := here
      rw [chunkReadOnly] at answered
      split at answered
      · cases answered
      · cases place
        exact handle part answered
    | noBytes noBytes =>
      cases here
      obtain ⟨b, bin⟩ : ∃ b, b = (fdC.content.drop pos).take (maxNoBytes noBytes) := ⟨_, rfl⟩
      have part : b <+: fdC.content.drop pos := bin ▸ take_prefix _ _
      have inside := part.length_le
      rw [length_drop] at inside
      have behind (present : b ≠ []) :
          Further fdC (writeCache fdC) pos ⟨pos + b.length, .noBytes none⟩ := by
        have some := length_pos_iff.mpr present
        exact ⟨writeCache_bytes, pos + b.length, rfl, by omega, by omega⟩
      rw [chunkReadOnly_read bin] at answered
      split at answered
      · cases answered
      rename_i present
      split at answered
      · cases answered
        exact behind present
      split at answered
      · have further := @handle (writeCache fdC) b (by rwa [writeCache_content]) answered
        rwa [Further, writeCache_bytes, writeCache_content] at further
      · cases answered
        exact behind present

theorem doHandleChunkRo_isSome
    (stuck : ∀ c, handleChunkRo md5 b pos n [] 0 = (c, [], 0) → (again fdC c.pos c.b n).isSome) :
    (doHandleChunkRo md5 again fdC pos b n).isSome := by
  unfold doHandleChunkRo
  split
  case h_1 c handled => exact stuck c handled
  case h_2 => rfl

theorem header_part {stream : Bytes} (part : b <+: stream) (long : ¬ b.length < headerSz) :
    b.take sizeSz = stream.take sizeSz ∧
    (b.drop sizeSz).take magicSz = (stream.drop sizeSz).take magicSz := by
  obtain ⟨rest, rfl⟩ := part
  have first : sizeSz ≤ b.length := Nat.le_trans (by decide) (Nat.le_of_not_lt long)
  have second : magicSz ≤ (b.drop sizeSz).length := by
    rw [length_drop]
    exact Nat.le_sub_of_add_le (Nat.le_of_not_lt long)
  rw [take_append_of_le_length first, drop_append_of_le_length first,
    take_append_of_le_length second]
  exact ⟨rfl, rfl⟩

theorem wanted_prefix {stream : Bytes} (part : b <+: stream) (long : ¬ b.length < headerSz) :
    wanted b = wanted stream := by
  obtain ⟨size, magic⟩ := header_part part long
  rw [wanted, wanted, size, magic]

/-- Bytes that were just read from a log that is not cut off there. -/
theorem read_stuck {stream : Bytes} (bin : b = stream.take maxBytes)
    (least : maxChunkSize ≤ maxBytes) (uncut : ¬ Cut md5 17 stream) (long : ¬ b.length < headerSz)
    (positive : n ≠ 0) (handled : handleChunkRo md5 b (start + b.length) n [] 0 = (c, [], 0)) :
    c = ⟨start, .noBytes (some (wanted stream))⟩ ∧
      (b.length < wanted stream ∨ maxChunkSize ≤ wanted stream ∧ b.length ≠ wanted stream) := by
  have stuck := handleChunkRo_stuck long positive handled
  rw [Nat.add_sub_cancel, wanted_prefix (bin ▸ take_prefix _ _) long] at stuck
  refine stuck.resolve_right fun cut => uncut ?_
  have short := cut.2.short
  have all : stream.length ≤ maxBytes := by
    rw [bin, length_take] at short
    simp only [maxChunkSize, headerSz] at least short
    omega
  rw [← take_of_length_le all, ← bin]
  exact cut.2

theorem le_maxNoBytes (noBytes : Option Nat) : maxChunkSize ≤ maxNoBytes noBytes := by
  cases noBytes with
  | none => exact Nat.le_refl _
  | some noBytes => exact Nat.le_max_right _ _

/-- The number of bytes that the header asks for is read. -/
theorem chunkReadOnly_known (uncut : ¬ Cut md5 17 (fdC.content.drop start)) (positive : n ≠ 0) :
    (chunkReadOnly md5 (calls + 1) fdC start
      (.noBytes (some (wanted (fdC.content.drop start)))) n).isSome := by
  generalize known : fdC.content.drop start = stream at uncut
  obtain ⟨b, bin⟩ : ∃ b, b = stream.take (maxNoBytes (some (wanted stream))) := ⟨_, rfl⟩
  rw [chunkReadOnly_read (show b = _ by rw [known, bin])]
  split
  · rfl
  split
  · rfl
  rename_i long
  split
  · rename_i enough
    refine doHandleChunkRo_isSome fun c handled => ?_
    obtain ⟨-, lacking⟩ := read_stuck bin (le_maxNoBytes _) uncut long positive handled
    have most : b.length ≤ max (wanted stream) maxChunkSize := by
      rw [bin]
      exact length_take_le _ _
    simp only [Option.all_some, decide_eq_true_eq] at enough
    omega
  · rfl

theorem chunkReadOnly_fresh (uncut : ¬ Cut md5 17 (fdC.content.drop start)) (positive : n ≠ 0) :
    (chunkReadOnly md5 (calls + 2) fdC start (.noBytes noBytes) n).isSome := by
  obtain ⟨b, bin⟩ : ∃ b, b = (fdC.content.drop start).take (maxNoBytes noBytes) := ⟨_, rfl⟩
  rw [chunkReadOnly_read bin]
  split
  · rfl
  split
  · rfl
  rename_i long
  split
  · refine doHandleChunkRo_isSome fun c handled => ?_
    obtain ⟨rfl, -⟩ := read_stuck bin (le_maxNoBytes _) uncut long positive handled
    rw [← @writeCache_content fdC] at uncut ⊢
    exact chunkReadOnly_known uncut positive
  · rfl

/-- Three calls are enough where the log is not cut off. -/
theorem chunkReadOnly_answers (here : Continuation.At ⟨pos, b⟩ fdC.content start)
    (uncut : ¬ Cut md5 17 (fdC.content.drop start)) (positive : n ≠ 0) :
    (chunkReadOnly md5 (calls + 3) fdC pos b n).isSome := by
  cases b with
  | noBytes noBytes =>
    cases here
    exact chunkReadOnly_fresh uncut positive
  | binary b =>
    obtain rfl : pos = start + b.length := here.2.2
    rw [chunkReadOnly]
    split
    · rfl
    · rename_i long
      refine doHandleChunkRo_isSome fun c handled => ?_
      have stuck := handleChunkRo_stuck long positive handled
      rw [Nat.add_sub_cancel] at stuck
      rcases stuck with ⟨rfl, -⟩ | ⟨rfl, -⟩
      · exact chunkReadOnly_fresh uncut positive
      · exact chunkReadOnly_fresh uncut positive

/-- Reading goes on at a header that is cut off, and no more bytes are asked for than there are. -/
def Continuation.CutAt (c : Continuation) (md5 : Bytes → Digest) (limit : Nat)
    (content : Bytes) : Prop :=
  ∃ start, c.At content start ∧ Cut md5 limit (content.drop start) ∧
    ∀ noBytes, c.b = .noBytes (some noBytes) → noBytes ≤ (content.drop start).length

theorem Cut.part {stream : Bytes} (cut : Cut md5 limit stream) (part : b <+: stream)
    (long : ¬ b.length < headerSz) :
    Cut md5 limit b := by
  obtain ⟨size, magic⟩ := header_part part long
  refine ⟨Nat.le_of_not_lt long, part.length_le.trans_lt cut.short, magic ▸ cut.magic,
    size ▸ cut.big, ?_⟩
  rw [size]
  exact fun checked => cut.unchecked (checked.trans (part.drop headerSz))

theorem Cut.take_maxNoBytes {stream : Bytes} (cut : Cut md5 limit stream) (small : limit ≤ 17) :
    stream.take (maxNoBytes noBytes) = stream := by
  have short := cut.short
  refine take_of_length_le (Nat.le_trans ?_ (le_maxNoBytes noBytes))
  simp only [headerSz, maxChunkSize] at *
  omega

theorem Cut.mono {stream : Bytes} (cut : Cut md5 limit stream) (le : limit ≤ limit') :
    Cut md5 limit' stream :=
  ⟨cut.long, cut.short.trans_le (Nat.add_le_add_left le _), cut.magic, cut.big, cut.unchecked⟩

theorem Cut.tail_lt {stream : Bytes} (cut : Cut md5 limit stream) :
    (stream.drop headerSz).length < limit := by
  have := cut.short
  have := cut.long
  rw [length_drop]
  omega

section Stuck

variable {md5 : Bytes → Digest} {fdC : Cache} {n : Nat} {b : Bytes} {c : Continuation}

theorem handleChunkRo_cut (cut : Cut md5 17 b) (positive : n ≠ 0) :
    handleChunkRo md5 b pos n [] 0 = (⟨pos - b.length, .noBytes none⟩, [], 0) := by
  rw [handleChunkRo, if_neg cut.long.not_gt, if_neg positive]
  exact (if_neg fun plain => cut.big plain.2).trans
    ((if_pos cut.magic).trans ((if_neg cut.unchecked).trans (if_neg cut.tail_lt.not_ge)))

theorem handleChunk_cut (cut : Cut md5 17 b) (positive : n ≠ 0) :
    handleChunk md5 b pos n [] =
      if 16 ≤ (b.drop headerSz).length then none
        else some (⟨pos - b.length, .noBytes none⟩, []) := by
  rw [handleChunk, if_neg cut.long.not_gt, if_neg positive]
  exact (if_neg fun plain => cut.big plain.2).trans
    ((if_pos cut.magic).trans (if_neg cut.unchecked))

theorem doHandleChunkRo_cut {again} (cut : Cut md5 17 stream) (part : b <+: stream)
    (long : ¬ b.length < headerSz) (positive : n ≠ 0) :
    doHandleChunkRo md5 again fdC (start + b.length) b n = again fdC start (.noBytes none) n := by
  rw [doHandleChunkRo, handleChunkRo_cut (cut.part part long) positive]
  simp only [Nat.add_sub_cancel]

/-- The header is read again for ever. -/
theorem chunkReadOnly_cut (cut : c.CutAt md5 17 fdC.content) (positive : n ≠ 0) :
    chunkReadOnly md5 calls fdC c.pos c.b n = none := by
  induction calls generalizing fdC c with
  | zero => rfl
  | succ calls ih =>
    obtain ⟨start, here, cut, enough⟩ := cut
    have again {fdC' : Cache} (same : fdC'.content = fdC.content) :
        chunkReadOnly md5 calls fdC' start (.noBytes none) n = none :=
      ih (c := ⟨start, .noBytes none⟩) ⟨start, rfl, same ▸ cut, nofun⟩
    obtain ⟨pos, b | noBytes⟩ := c
    · obtain ⟨part, long, place⟩ := here
      obtain rfl : pos = start + b.length := place
      rw [chunkReadOnly, if_neg long.not_gt, doHandleChunkRo_cut cut part long.not_gt positive]
      exact again rfl
    · cases here
      rw [chunkReadOnly_read (cut.take_maxNoBytes le_rfl).symm,
        if_neg (length_pos_iff.mp (cut.long.trans_lt' (by decide))),
        if_neg cut.long.not_gt, if_pos,
          doHandleChunkRo_cut cut (prefix_refl _) cut.long.not_gt positive]
      · exact again writeCache_content
      · cases noBytes with
        | none => rfl
        | some noBytes => exact decide_eq_true (enough noBytes rfl)

theorem doHandleChunk_cut {again} (cut : Cut md5 17 b) (positive : n ≠ 0) :
    doHandleChunk md5 again fdC (start + b.length) b n =
      if 16 ≤ (b.drop headerSz).length then some (fdC, .corruptLogFile)
        else again fdC start (.noBytes none) n := by
  rw [doHandleChunk, handleChunk_cut cut positive, Nat.add_sub_cancel]
  by_cases whole : 16 ≤ (b.drop headerSz).length
  · rw [if_pos whole, if_pos whole]
  · rw [if_neg whole, if_neg whole]

theorem chunk_read_cut (cut : Cut md5 17 (fdC.content.drop pos)) (positive : n ≠ 0)
    (enough : ∀ k, noBytes = some k → k ≤ (fdC.content.drop pos).length) :
    chunk md5 (calls + 1) fdC pos (.noBytes noBytes) n =
      if 16 ≤ ((fdC.content.drop pos).drop headerSz).length then
        some (writeCache fdC, .corruptLogFile)
      else chunk md5 calls (writeCache fdC) pos (.noBytes none) n := by
  have all : noBytes.all (· ≤ (fdC.content.drop pos).length) = true := by
    cases noBytes with
    | none => rfl
    | some k => exact decide_eq_true (enough k rfl)
  rw [chunk, readChunk_eq_ro, readChunkRo_eq, cut.take_maxNoBytes le_rfl,
    if_neg (length_pos_iff.mp (cut.long.trans_lt' (by decide)))]
  dsimp only
  rw [if_neg cut.long.not_gt, if_pos all, doHandleChunk_cut cut positive]

theorem chunk_cut (cut : c.CutAt md5 16 fdC.content) (positive : n ≠ 0) :
    chunk md5 calls fdC c.pos c.b n = none := by
  induction calls generalizing fdC c with
  | zero => rfl
  | succ calls ih =>
    obtain ⟨start, here, cut, enough⟩ := cut
    have again {fdC' : Cache} (same : fdC'.content = fdC.content) :
        chunk md5 calls fdC' start (.noBytes none) n = none :=
      ih (c := ⟨start, .noBytes none⟩) ⟨start, rfl, same ▸ cut, nofun⟩
    obtain ⟨pos, b | noBytes⟩ := c
    · obtain ⟨part, long, place⟩ := here
      obtain rfl : pos = start + b.length := place
      have inside := cut.part part long.not_gt
      rw [chunk, if_neg long.not_gt, doHandleChunk_cut (inside.mono (by decide)) positive,
        if_neg inside.tail_lt.not_ge]
      exact again rfl
    · cases here
      rw [chunk_read_cut (cut.mono (by decide)) positive fun k asked => enough k (congrArg _ asked),
        if_neg cut.tail_lt.not_ge]
      exact again writeCache_content

theorem chunkReadOnly_returns (here : c.At fdC.content start) (positive : n ≠ 0)
    (uncut : ¬ c.CutAt md5 17 fdC.content) : (chunkReadOnly md5 3 fdC c.pos c.b n).isSome := by
  by_cases cut : Cut md5 17 (fdC.content.drop start)
  · obtain ⟨noBytes, asked, more⟩ : ∃ noBytes, c.b = .noBytes (some noBytes) ∧
      (fdC.content.drop start).length < noBytes := by
      by_contra enough
      exact uncut ⟨start, here, cut,
        fun noBytes asked => Nat.le_of_not_lt fun less => enough ⟨noBytes, asked, less⟩⟩
    obtain ⟨pos, _⟩ := c
    cases asked
    cases here
    rw [chunkReadOnly_read (cut.take_maxNoBytes le_rfl).symm,
      if_neg (length_pos_iff.mp (cut.long.trans_lt' (by decide))),
      if_neg cut.long.not_gt, if_neg (by simpa using more)]
    rfl
  · exact chunkReadOnly_answers here cut positive

theorem chunk_returns (here : c.At fdC.content start) (positive : n ≠ 0)
    (uncut : ¬ c.CutAt md5 16 fdC.content) : (chunk md5 3 fdC c.pos c.b n).isSome := by
  by_cases cut : c.CutAt md5 17 fdC.content
  · obtain ⟨start, here, cut, enough⟩ := cut
    have whole : 16 ≤ ((fdC.content.drop start).drop headerSz).length := by
      by_contra less
      rw [length_drop] at less
      have long := cut.long
      exact uncut ⟨start, here, ⟨long, by omega, cut.magic, cut.big, cut.unchecked⟩, enough⟩
    obtain ⟨pos, b | noBytes⟩ := c
    · obtain ⟨part, long, place⟩ := here
      obtain rfl : pos = start + b.length := place
      rw [chunk, if_neg long.not_gt, doHandleChunk_cut (cut.part part long.not_gt) positive]
      split
      · rfl
      · rw [chunk_read_cut cut positive (by intro _ none; cases none), if_pos whole]
        rfl
    · cases here
      rw [chunk_read_cut cut positive fun k asked => enough k (congrArg _ asked), if_pos whole]
      rfl
  · exact chunk_isSome (chunkReadOnly_returns here positive cut)

end Stuck

/-- Every call answers, and after finitely many of them there is no continuation. -/
inductive Ends (call : Nat → Cache → Nat → Buffer → Nat → Option (Cache × Answer))
    (goesOn : Answer → Option Continuation) :
    Cache → Continuation → Prop
  | intro (answers : ∀ n, n ≠ 0 → ∃ calls, (call calls fdC c.pos c.b n).isSome)
      (ends : ∀ n calls newFdC answer next, call calls fdC c.pos c.b n = some (newFdC, answer) →
        goesOn answer = some next → Ends call goesOn newFdC next) : Ends call goesOn fdC c

def Reply.goesOn : Reply → Option Continuation
  | .ok c _ => some c
  | _ => none

def ReplyRo.goesOn : ReplyRo → Option Continuation
  | .ok c _ _ => some c
  | _ => none

/-- A call from one continuation returns the next one. -/
def Next (call : Nat → Cache → Nat → Buffer → Nat → Option (Cache × Answer))
    (goesOn : Answer → Option Continuation) (s s' : Cache × Continuation) : Prop :=
  ∃ n calls answer, call calls s.1 s.2.pos s.2.b n = some (s'.1, answer) ∧ goesOn answer = some s'.2

theorem Ends.next (ends : Ends call goesOn s.1 s.2)
    (run : Relation.ReflTransGen (Next call goesOn) s s') :
    Ends call goesOn s'.1 s'.2 := by
  induction run with
  | refl => exact ends
  | tail _ step ih =>
    obtain ⟨n, calls, answer, answered, more⟩ := step
    obtain ⟨-, ends⟩ := ih
    exact ends n calls _ answer _ answered more

/-- What is left of the log gets shorter. -/
theorem ends_iff {call : Nat → Cache → Nat → Buffer → Nat → Option (Cache × Answer)}
    (further : ∀ {fdC} {c : Continuation} {start n calls newFdC answer next},
      c.At fdC.content start →
      call calls fdC c.pos c.b n = some (newFdC, answer) → goesOn answer = some next →
        Further fdC newFdC start next)
    (answers : ∀ {fdC} {c : Continuation} {start n}, c.At fdC.content start → n ≠ 0 →
      ¬ c.CutAt md5 limit fdC.content →
      (call 3 fdC c.pos c.b n).isSome)
    (never : ∀ {fdC} {c : Continuation} {n calls}, c.CutAt md5 limit fdC.content → n ≠ 0 →
      call calls fdC c.pos c.b n = none)
    (here : c.At fdC.content start) :
    Ends call goesOn fdC c ↔
      ∀ s, Relation.ReflTransGen (Next call goesOn) (fdC, c) s →
      ¬ s.2.CutAt md5 limit s.1.content := by
  constructor
  · intro ends s run cut
    obtain ⟨answered, -⟩ := ends.next run
    obtain ⟨calls, some⟩ := answered 1 Nat.one_ne_zero
    rw [never cut Nat.one_ne_zero] at some
    cases some
  · intro uncut
    generalize left : fdC.content.length - start = rest
    induction rest using Nat.strong_induction_on generalizing fdC c start with
    | _ rest ih =>
      refine .intro (fun n positive => ⟨3, answers here positive (uncut _ .refl)⟩) ?_
      intro n calls newFdC answer next answered more
      obtain ⟨same, place, there, low, high⟩ := further here answered more
      have content : newFdC.content = fdC.content := by rw [Cache.content, same, Cache.content]
      refine ih _ ?_ (content ▸ there)
        (fun s run => uncut s (run.head ⟨n, calls, answer, answered, more⟩)) rfl
      rw [content]
      omega

/-- Reading a log from any position on comes to an end exactly if it does not come to a header of
a big item behind which the log is cut off. -/
theorem reading_ends (md5 : Bytes → Digest) (fdC : Cache) (pos : Nat) (noBytes : Option Nat) :
    (Ends (chunk md5) Reply.goesOn fdC ⟨pos, .noBytes noBytes⟩ ↔
      ∀ s, Relation.ReflTransGen (Next (chunk md5) Reply.goesOn) (fdC, ⟨pos, .noBytes noBytes⟩) s →
        ¬ s.2.CutAt md5 16 s.1.content) ∧
    (Ends (chunkReadOnly md5) ReplyRo.goesOn fdC ⟨pos, .noBytes noBytes⟩ ↔
      ∀ s, Relation.ReflTransGen (Next (chunkReadOnly md5) ReplyRo.goesOn) (fdC,
        ⟨pos, .noBytes noBytes⟩) s →
        ¬ s.2.CutAt md5 17 s.1.content) := by
  refine ⟨ends_iff (fun here answered more => ?_) chunk_returns chunk_cut rfl,
    ends_iff (fun here answered more => ?_) chunkReadOnly_returns chunkReadOnly_cut rfl⟩
  · rename_i answer _
    cases answer with
    | ok c ack =>
      cases more
      exact chunkReadOnly_further here (chunkReadOnly_of_ok answered)
    | _ => cases more
  · rename_i answer _
    cases answer with
    | ok c ack bad =>
      cases more
      exact chunkReadOnly_further here answered
    | _ => cases more

/-- A log of one header with a size of 65528 bytes. -/
theorem reading_goes_on : ¬ Ends (chunk fun _ => ⟨replicate 16 0, rfl⟩) Reply.goesOn
    ⟨logMagic ++ opened ++ [0, 0, 255, 248, 98, 87, 76, 65], 0, []⟩ ⟨0, .noBytes none⟩ := by
  rintro ⟨answers, -⟩
  obtain ⟨calls, some⟩ := answers 1 Nat.one_ne_zero
  have cut : Continuation.CutAt ⟨0, .noBytes none⟩ (fun _ => ⟨replicate 16 0, rfl⟩) 16
      (Cache.content ⟨logMagic ++ opened ++ [0, 0, 255, 248, 98, 87, 76, 65], 0, []⟩) :=
    ⟨0, rfl, ⟨by decide, by decide, by decide, by decide, by decide⟩, nofun⟩
  rw [chunk_cut cut Nat.one_ne_zero] at some
  cases some

end Otp.DiskLog
