import Otp.DiskLog.Reading

/-! Repair of a log that was not closed: `disk_log_1.erl` copies the items that it recognises to a
new log. -/

namespace Otp.DiskLog

open List
open Otp.Library

section Scan

/-- What `case catch` tells of a term: it is a tuple `{'EXIT', _}`, or it is not. -/
inductive Decoded where
  | exit | other
  deriving DecidableEq

-- `binary_to_term/1`, which may fail.
variable (md5 : Bytes → Digest) (binaryToTerm : Bytes → Option Decoded)

/-- `catch binary_to_term(B)`: a failure becomes a tuple `{'EXIT', Reason}`. -/
def caught (b : Bytes) : Decoded := (binaryToTerm b).getD .exit

/-- `b` is left, and `maxBytes` are to be read next. -/
structure Scanned where
  b : Bytes
  maxBytes : Nat
  ack : List Bytes
  no : Nat
  bad : Nat

/-- With `scan_f2` inlined, as the source has it compiled. -/
def scanF (b : Bytes) (fSz : Nat) (ack : List Bytes) (no bad : Nat) : Scanned :=
  if b.length < headerSz then ⟨b, maxChunkSize, ack, no, bad⟩
  else
    let size := ofBytes (b.take sizeSz)
    let magic := ofBytes ((b.drop sizeSz).take magicSz)
    let tail := b.drop headerSz
    if magic = bigMagicInt ∧ ¬ size < minMd5Term then
      if (md5 (toBytes sizeSz size)).1 <+: tail then
        if 16 + size ≤ tail.length then
          if caught binaryToTerm ((tail.drop 16).take size) = .other then
            scanF (tail.drop (16 + size)) fSz ((tail.drop 16).take size :: ack) (no + 1) bad
          else scanF (tail.drop (16 + size)) fSz ack no (bad + size)
        else ⟨b, size + 16 - tail.length, ack, no, bad⟩
      else if tail.length < 16 then ⟨b, size + 16 - tail.length, ack, no, bad⟩
      else scanF (b.drop 1) fSz ack no (bad + 1)
    else if magic = bigMagicInt ∨ magic = magicInt ∧ size ≤ fSz then
      if size ≤ tail.length then
        if caught binaryToTerm (tail.take size) = .other then
          scanF (tail.drop size) fSz (tail.take size :: ack) (no + 1) bad
        else scanF (b.drop 1) fSz ack no (bad + 1)
      else ⟨b, size - tail.length, ack, no, bad⟩
    else scanF (b.drop 1) fSz ack no (bad + 1)
termination_by b.length
decreasing_by all_goals simp only [length_drop, headerSz] at *; omega

structure Repaired where
  fdC : Cache
  recoveredTerms : Nat
  badChars : Nat
  p : Nat

/-- The new file takes the place of the old one. -/
def doneScan (out : Cache) (recoveredTerms badChars : Nat) : Repaired :=
  let new := (writeCache out).fd
  ⟨⟨new, 0, []⟩, recoveredTerms, badChars, new.length⟩

/-- `rest` is still to be read, and `cuts` says where the pieces end that `file:read/2` returns.
There is no end with an empty piece. -/
def scanFRead (cuts : Nat → Nat) (b rest : Bytes) (out : Cache) (fSz maxBytes no bad : Nat) :
    Option Repaired :=
  if rest = [] then some (doneScan out no (bad + b.length))
  else if maxBytes = 0 then none
  else
    let count := min maxBytes (cuts rest.length + 1)
    let s := scanF md5 binaryToTerm (b ++ rest.take count) fSz [] no bad
    scanFRead cuts s.b (rest.drop count) (log md5 out s.ack.reverse) fSz s.maxBytes s.no s.bad
termination_by rest.length
decreasing_by
  have := length_pos_iff.mpr ‹rest ≠ []›
  rw [length_drop]
  omega

/-- The head of the file has been read. -/
def repair (cuts : Nat → Nat) (content : Bytes) : Option Repaired :=
  scanFRead md5 binaryToTerm cuts [] content newIntFile (headSz + content.length) maxChunkSize 0 0

end Scan

variable {md5 : Bytes → Digest} {binaryToTerm : Bytes → Option Decoded} {ack : List Bytes}

theorem scanF_item (small : x.length < 2 ^ 32) (decodes : caught binaryToTerm x = .other)
    (rest : Bytes) :
    scanF md5 binaryToTerm (item md5 x ++ rest) fSz ack no bad =
      scanF md5 binaryToTerm rest fSz (x :: ack) (no + 1) bad := by
  obtain ⟨long, size, magic, behind⟩ := header_read small (body md5 x ++ rest)
  rw [item, append_assoc, scanF, if_neg long]
  simp only [size, magic, behind, true_and, true_or, if_true]
  by_cases plain : x.length < minMd5Term
  · rw [if_neg (not_not_intro plain), body, if_pos plain, take_left, drop_left, if_pos decodes]
    exact if_pos (by simp)
  · have digest := (md5 (toBytes sizeSz x.length)).2
    have whole : 16 + x.length = ((md5 (toBytes sizeSz x.length)).1 ++ x).length := by
      rw [length_append, digest]
    rw [if_pos plain, body, if_neg plain, whole, drop_left, append_assoc,
      if_pos (prefix_append _ _), drop_left' digest, take_left, if_pos decodes]
    exact if_pos (by simp)

/-- What is not yet a whole item stays, and there is something to read. -/
theorem scanF_part (small : x.length < 2 ^ 32) (part : b <+: item md5 x)
    (proper : b.length < (item md5 x).length) :
    ∃ maxBytes, 0 < maxBytes ∧ scanF md5 binaryToTerm b fSz ack no bad =
      ⟨b, maxBytes, ack, no, bad⟩ := by
  by_cases short : b.length < headerSz
  · exact ⟨maxChunkSize, by decide, by rw [scanF, if_pos short]⟩
  rw [← append_nil (item md5 x)] at part
  obtain ⟨tail, rfl, inside⟩ := header_prefix part (Nat.le_of_not_lt short)
  rw [append_nil] at inside
  obtain ⟨long, size, magic, behind⟩ := header_read small tail
  rw [length_append, length_header] at proper
  rw [scanF, if_neg long]
  simp only [size, magic, behind, true_and, true_or, if_true]
  by_cases plain : x.length < minMd5Term
  · rw [length_item_small plain] at proper
    rw [if_neg (not_not_intro plain), if_neg (by omega)]
    exact ⟨_, by omega, rfl⟩
  · rw [length_item_big plain] at proper
    rw [if_pos plain]
    refine ⟨x.length + 16 - tail.length, by omega, ?_⟩
    split
    · exact if_neg (by omega)
    case isFalse unchecked =>
      refine if_pos (Nat.lt_of_not_le fun enough => unchecked ?_)
      rw [body, if_neg plain] at inside
      exact prefix_of_prefix_length_le (prefix_append _ _) inside ((md5 _).2.trans_le enough)

/-- The bytes are the beginning of the first item. -/
def Begins (md5 : Bytes → Digest) (b : Bytes) (items : List Bytes) : Prop :=
  ∃ x more, items = x :: more ∧ b <+: item md5 x ∧ b.length < (item md5 x).length

/-- Wherever a torn log is cut. -/
theorem cut_items (torn : Begins md5 part [x]) (cut : b <+: items.flatMap (item md5) ++ part) :
    ∃ done rest left, items = done ++ rest ∧ b = done.flatMap (item md5) ++ left ∧
      Begins md5 left (rest ++ [x]) := by
  induction items generalizing b with
  | nil =>
    obtain ⟨_, _, ⟨⟩, inside, proper⟩ := torn
    exact ⟨[], [], b, rfl, rfl, x, [], rfl, cut.trans inside, cut.length_le.trans_lt proper⟩
  | cons y items ih =>
    rw [flatMap_cons, append_assoc] at cut
    by_cases within : b.length < (item md5 y).length
    · exact ⟨[], y :: items, b, rfl, rfl, y, _, rfl,
        prefix_of_prefix_length_le cut (prefix_append _ _) within.le, within⟩
    · obtain ⟨behind, rfl⟩ :=
        prefix_of_prefix_length_le (prefix_append _ _) cut (Nat.le_of_not_lt within)
      obtain ⟨done, rest, left, rfl, rfl, begins⟩ := ih ((prefix_append_right_inj _).mp cut)
      exact ⟨y :: done, rest, left, rfl, by rw [flatMap_cons, append_assoc], begins⟩

theorem scanF_items (small : ∀ x ∈ done ++ rest, x.length < 2 ^ 32)
    (decodes : ∀ x ∈ done, caught binaryToTerm x = .other) (begins : Begins md5 left rest)
    (fSz : Nat) (ack : List Bytes) (no bad : Nat) :
    ∃ maxBytes, 0 < maxBytes ∧
    scanF md5 binaryToTerm (done.flatMap (item md5) ++ left) fSz ack no bad =
      ⟨left, maxBytes, done.reverse ++ ack, no + done.length, bad⟩ := by
  induction done generalizing ack no with
  | nil =>
    obtain ⟨x, more, rfl, inside, proper⟩ := begins
    exact scanF_part (small x mem_cons_self) inside proper
  | cons x done ih =>
    rw [flatMap_cons, append_assoc, scanF_item (small x mem_cons_self) (decodes x mem_cons_self)]
    obtain ⟨maxBytes, positive, scanned⟩ := ih (fun y member => small y (mem_cons_of_mem _ member))
      (fun y member => decodes y (mem_cons_of_mem _ member)) (x :: ack) (no + 1)
    refine ⟨maxBytes, positive, ?_⟩
    rw [scanned, reverse_cons, append_assoc, length_cons, Nat.add_assoc, Nat.add_comm 1]
    rfl

/-- Between two reads: the items before `items` are written, and `b` has not been used. -/
theorem scanFRead_items (cuts : Nat → Nat) (small : ∀ y ∈ items ++ [x], y.length < 2 ^ 32)
    (decodes : ∀ y ∈ items, caught binaryToTerm y = .other) (torn : Begins md5 part [x])
    (begins : Begins md5 b (items ++ [x]))
    (same : b ++ rest = items.flatMap (item md5) ++ part) (positive : 0 < maxBytes) (out : Cache)
    (fSz no bad : Nat) :
    ∃ new : Cache, new.bytes = out.bytes ++ items.flatMap (item md5) ∧
      scanFRead md5 binaryToTerm cuts b rest out fSz maxBytes no bad =
        some (doneScan new (no + items.length) (bad + part.length)) := by
  induction size : rest.length using Nat.strong_induction_on
    generalizing b rest items out maxBytes no with
  | _ total ih =>
  rw [scanFRead]
  by_cases finished : rest = []
  · rw [finished, append_nil] at same
    cases items with
    | nil => exact ⟨out, (append_nil _).symm, by rw [if_pos finished, same]; rfl⟩
    | cons y items =>
      obtain ⟨_, _, ⟨⟩, -, proper⟩ := begins
      rw [same, flatMap_cons, length_append, length_append] at proper
      omega
  rw [if_neg finished, if_neg positive.ne']
  generalize bound : min maxBytes (cuts rest.length + 1) = count
  have cut : b ++ rest.take count <+: items.flatMap (item md5) ++ part := by
    rw [← same]
    exact (prefix_append_right_inj _).mpr (List.take_prefix _ _)
  obtain ⟨done, more, left, rfl, read, unfinished⟩ := cut_items torn cut
  rw [append_assoc] at small
  obtain ⟨newMax, some, scanned⟩ :=
    scanF_items small (fun y member => decodes y (mem_append_left _ member))
    unfinished fSz [] no bad
  have after : left ++ rest.drop count = more.flatMap (item md5) ++ part := by
    rw [← take_append_drop count rest, ← append_assoc, read, flatMap_append, append_assoc,
      append_assoc] at same
    exact append_cancel_left same
  have fewer : (rest.drop count).length < total := by
    have := length_pos_iff.mpr finished
    rw [length_drop]
    omega
  obtain ⟨new, bytes, repaired⟩ := ih _ fewer (fun y member => small y (mem_append_right _ member))
    (fun y member => decodes y (mem_append_right _ member)) unfinished after some
    (log md5 out done) (no + done.length) rfl
  refine ⟨new, by rw [bytes, log_bytes, flatMap_append, append_assoc], ?_⟩
  simp only [read, scanned, append_nil, reverse_reverse]
  rw [repaired, length_append, Nat.add_assoc]

/-- Whole items and the beginning of one more: the items are in the new log, and the rest is bad. -/
theorem repair_begins (cuts : Nat → Nat) (small : ∀ y ∈ items ++ [x], y.length < 2 ^ 32)
    (decodes : ∀ y ∈ items, caught binaryToTerm y = .other) (torn : Begins md5 part [x]) :
    repair md5 binaryToTerm cuts (items.flatMap (item md5) ++ part) =
      some ⟨⟨newIntFile.fd ++ items.flatMap (item md5), 0, []⟩, items.length, part.length,
        headSz + (items.flatMap (item md5)).length⟩ := by
  have start : Begins md5 [] (items ++ [x]) := by
    have filled (y : Bytes) : 0 < (item md5 y).length :=
      (headerSz_le_item md5 y).trans_lt' (by decide)
    cases items with
    | nil => exact ⟨x, [], rfl, nil_prefix, filled x⟩
    | cons y items => exact ⟨y, _, rfl, nil_prefix, filled y⟩
  obtain ⟨new, bytes, repaired⟩ := scanFRead_items cuts small decodes torn start (nil_append _)
    (by decide : 0 < maxChunkSize) newIntFile
      (headSz + (items.flatMap (item md5) ++ part).length) 0 0
  rw [repair, repaired, doneScan, writeCache_fd, bytes]
  simp only [Nat.zero_add, length_append]
  rfl

/-- What is taken from a piece. -/
def Accepted (binaryToTerm : Bytes → Option Decoded) (x : Bytes) : Prop :=
  x.length < 2 ^ 32 ∧ caught binaryToTerm x = .other

theorem scanF_accepts (md5 : Bytes → Digest) (binaryToTerm : Bytes → Option Decoded)
    (b : Bytes) (fSz : Nat) (ack : List Bytes) (no bad : Nat) :
    ∃ new, (scanF md5 binaryToTerm b fSz ack no bad).ack = new ++ ack ∧
    (scanF md5 binaryToTerm b fSz ack no bad).no = no + new.length ∧ ∀ x ∈ new,
      Accepted binaryToTerm x := by
  have next {b x : Bytes} {s : Scanned} {ack : List Bytes} {no : Nat}
      (part : x.length ≤ ofBytes (b.take sizeSz))
      (decoded : caught binaryToTerm x = .other)
      (ih : ∃ new, s.ack = new ++ x :: ack ∧ s.no = no + 1 + new.length ∧ ∀ x ∈ new,
        Accepted binaryToTerm x) :
      ∃ new, s.ack = new ++ ack ∧ s.no = no + new.length ∧ ∀ x ∈ new, Accepted binaryToTerm x := by
    obtain ⟨new, ack, number, accepted⟩ := ih
    have short : x.length < 2 ^ 32 :=
      (part.trans_lt (ofBytes_lt _)).trans_le
        (Nat.pow_le_pow_right (by decide) (length_take_le _ _))
    refine ⟨new ++ [x], by rw [ack, append_assoc, singleton_append], ?_, ?_⟩
    · rw [number, length_append, length_singleton]
      omega
    · exact forall_mem_append.mpr ⟨accepted, forall_mem_singleton.mpr ⟨short, decoded⟩⟩
  fun_induction scanF
  case case2 decoded ih => exact next (length_take_le _ _) decoded ih
  case case7 decoded ih => exact next (length_take_le _ _) decoded ih
  all_goals first | assumption | exact ⟨[], rfl, rfl, nofun⟩

theorem scanFRead_accepts
    (repaired : scanFRead md5 binaryToTerm cuts b rest out fSz maxBytes no bad = some r) :
    ∃ new : List Bytes, r.fdC.fd = out.bytes ++ new.flatMap (item md5) ∧
    r.recoveredTerms = no + new.length ∧
      ∀ x ∈ new, Accepted binaryToTerm x := by
  fun_induction scanFRead with
  | case1 =>
    cases repaired
    exact ⟨[], by rw [doneScan, writeCache_fd, flatMap_nil, append_nil], rfl, nofun⟩
  | case2 => cases repaired
  | case3 b rest out maxBytes no bad _ _ count s ih =>
    obtain ⟨first, ack, number, accepted⟩ :=
      scanF_accepts md5 binaryToTerm (b ++ rest.take count) fSz [] no bad
    obtain ⟨later, bytes, total, behind⟩ := ih repaired
    refine ⟨first.reverse ++ later, ?_, ?_, ?_⟩
    · rw [bytes, log_bytes, ack, append_nil, flatMap_append, append_assoc]
    · rw [total, number, length_append, length_reverse, Nat.add_assoc]
    · exact forall_mem_append.mpr ⟨fun x member => accepted x (mem_reverse.mp member), behind⟩

theorem item_cancel (small : x.length < 2 ^ 32) (small' : y.length < 2 ^ 32)
    (same : item md5 x ++ rest = item md5 y ++ rest') : x = y ∧ rest = rest' := by
  rw [item, item, append_assoc, append_assoc] at same
  have sizes := (header_read small (body md5 x ++ rest)).2.1
  rw [same, (header_read small' _).2.1] at sizes
  have heads : header x = header y := by rw [header, header, sizes]
  rw [heads, append_cancel_left_eq, body, body, sizes] at same
  split at same
  · exact append_inj same sizes.symm
  · rw [append_assoc, append_assoc, append_cancel_left_eq] at same
    exact append_inj same sizes.symm

theorem items_injective {xs ys : List Bytes} (small : ∀ x ∈ xs, x.length < 2 ^ 32)
    (small' : ∀ y ∈ ys, y.length < 2 ^ 32) (same : xs.flatMap (item md5) = ys.flatMap (item md5)) :
    xs = ys := by
  induction xs generalizing ys with
  | nil =>
    cases ys with
    | nil => rfl
    | cons y ys => cases same
  | cons x xs ih =>
    cases ys with
    | nil => cases same
    | cons y ys =>
      obtain ⟨first, tails⟩ := forall_mem_cons.mp small
      obtain ⟨first', tails'⟩ := forall_mem_cons.mp small'
      obtain ⟨rfl, rest⟩ := item_cancel first first' same
      rw [ih tails tails' rest]

/-- Whole items and the beginning of one more. Repair writes the items to the new log and counts
the rest as bad exactly if none of them is a tuple `{'EXIT', _}`, which it takes for a failure of
`binary_to_term/1`. -/
theorem repair_torn (md5 : Bytes → Digest) (binaryToTerm : Bytes → Option Decoded)
    (cuts : Nat → Nat) (items : List Bytes) (x part : Bytes)
    (small : ∀ y ∈ items ++ [x], y.length < 2 ^ 32) (decodes : ∀ y ∈ items, binaryToTerm y ≠ none)
    (inside : part <+: (logl md5 [x] [] 0).1) (proper : part ≠ (logl md5 [x] [] 0).1) :
    repair md5 binaryToTerm cuts ((logl md5 items [] 0).1 ++ part) =
      some ⟨⟨newIntFile.fd ++ (logl md5 items [] 0).1, 0, []⟩, items.length, part.length,
        headSz + (logl md5 items [] 0).1.length⟩ ↔ ∀ y ∈ items, binaryToTerm y ≠ some .exit := by
  simp only [logl_eq, nil_append, flatMap_singleton] at *
  have torn : Begins md5 part [x] :=
    ⟨x, [], rfl, inside, inside.length_le.lt_of_ne fun same => proper (inside.eq_of_length same)⟩
  have other (y : Bytes) (decoded : binaryToTerm y ≠ none) :
      caught binaryToTerm y = .other ↔ binaryToTerm y ≠ some .exit := by
    rw [caught]
    generalize binaryToTerm y = term at decoded ⊢
    rcases term with _ | _ | _
    · exact absurd rfl decoded
    · decide
    · decide
  constructor
  · intro repaired y member
    obtain ⟨new, bytes, -, accepted⟩ := scanFRead_accepts repaired
    have same := items_injective (fun x member => (accepted x member).1)
      (fun x member => small x (mem_append_left _ member)) (append_cancel_left bytes).symm
    exact (other y (decodes y member)).mp (accepted y (same ▸ member)).2
  · exact fun none => repair_begins cuts small
      (fun y member => (other y (decodes y member)).mpr (none y member)) torn

/-- An item and the header of another one, in pieces of three bytes. -/
theorem repair_torn_header :
    [0, 0, 0, 1, 98, 87, 76, 65] <+: (logl (fun _ => ⟨replicate 16 0, rfl⟩) [[9]] [] 0).1 ∧
      repair (fun _ => ⟨replicate 16 0, rfl⟩) (fun _ => some .other) (fun _ => 2)
        ((logl (fun _ => ⟨replicate 16 0, rfl⟩) [[7]] [] 0).1 ++ [0, 0, 0, 1, 98, 87, 76, 65]) =
          some ⟨⟨newIntFile.fd ++ [0, 0, 0, 1, 98, 87, 76, 65, 7], 0, []⟩, 1, 8, 17⟩ :=
  ⟨by decide, (repair_torn _ _ _ [[7]] [9] _ (by decide) (by decide) (by decide) (by decide)).mpr
    (by decide)⟩

/-- `term_to_binary({'EXIT',1})` -/
def exitTerm : Bytes := [131, 104, 2, 100, 0, 4, 69, 88, 73, 84, 97, 1]

/-- A logged tuple `{'EXIT',1}` is dropped. So is an item of 4 GiB, whose size is written as 0. -/
theorem repair_drops_items :
    repair (fun _ => ⟨replicate 16 0, rfl⟩) (fun b => if b = exitTerm then some .exit else none)
      (fun _ => 100)
        (logl (fun _ => ⟨replicate 16 0, rfl⟩) [exitTerm] [] 0).1 =
          some ⟨⟨newIntFile.fd, 0, []⟩, 0, 20, 8⟩ ∧
    ∃ x : Bytes, x.length = 2 ^ 32 ∧
      repair (fun _ => ⟨replicate 16 0, rfl⟩) (fun _ => some .other) (fun _ => 7)
        (logl (fun _ => ⟨replicate 16 0, rfl⟩) [x] [] 0).1 ≠
      some ⟨⟨newIntFile.fd ++ (logl (fun _ => ⟨replicate 16 0, rfl⟩) [x] [] 0).1, 0, []⟩, 1, 0,
        headSz + (logl (fun _ => ⟨replicate 16 0, rfl⟩) [x] [] 0).1.length⟩ := by
  refine ⟨?_, ?_⟩
  · rw [repair, scanFRead, if_neg (by decide), if_neg (by decide)]
    simp [scanF, scanFRead, logl, caught, exitTerm, doneScan, headerSz, sizeSz, magicSz,
      bigMagicHead, bigMagicInt, magicInt, minMd5Term, maxChunkSize, ofBytes, toBytes]
    decide
  obtain ⟨x, size⟩ : ∃ x : Bytes, x.length = 2 ^ 32 := ⟨replicate (2 ^ 32) 0, length_replicate⟩
  refine ⟨x, size, fun repaired => ?_⟩
  obtain ⟨new, bytes, number, accepted⟩ := scanFRead_accepts repaired
  obtain ⟨y, rfl⟩ := length_eq_one_iff.mp ((Nat.zero_add _).symm.trans number.symm)
  have short := (accepted y mem_cons_self).1
  have lengths := congrArg length (append_cancel_left bytes)
  have minimum : minMd5Term = 65528 := rfl
  rw [logl_eq, nil_append, flatMap_singleton, flatMap_singleton,
    length_item_big (by omega)] at lengths
  by_cases plain : y.length < minMd5Term
  · rw [length_item_small plain] at lengths
    omega
  · rw [length_item_big plain] at lengths
    omega

/-- Only `kept` bytes behind the head of the file survive a crash. The repaired log has the items
of which no byte is lost, and what is logged from then on is read behind them. -/
theorem crash_keeps_whole_items (md5 : Bytes → Digest) (binaryToTerm : Bytes → Option Decoded)
    (cuts : Nat → Nat) (ops more : List Op) (kept : Nat)
    (decodes : ∀ x ∈ ops.flatMap Op.written, binaryToTerm x = some .other)
    (small : ∀ x ∈ ops.flatMap Op.written ++ more.flatMap Op.written, x.length < 2 ^ 32) :
    let disk := ((ops.foldl (Op.run md5) newIntFile).fd.drop headSz).take kept
    ∃ items lost r, ops.flatMap Op.written = items ++ lost ∧
      repair md5 binaryToTerm cuts disk = some r ∧
      r.recoveredTerms = items.length ∧ (logl md5 items [] 0).1 <+: disk ∧
      (∀ x ∈ lost.head?, disk.length < (logl md5 (items ++ [x]) [] 0).1.length) ∧
      ∀ counts, (∀ n ∈ counts, n ≠ 0) → (items ++ more.flatMap Op.written).length < counts.length →
        chunks md5 3 counts (more.foldl (Op.run md5) r.fdC) ⟨0, .noBytes none⟩ =
          some (items ++ more.flatMap Op.written, .eof) := by
  intro disk
  have created : Holds md5 newIntFile [] := ⟨logMagic ++ opened, rfl, rfl⟩
  have stored : Holds md5 (ops.foldl (Op.run md5) newIntFile) ([] ++ ops.flatMap Op.written) :=
    foldl_run_holds created
  have cut : disk <+: (ops.flatMap Op.written).flatMap (item md5) ++ [] := by
    rw [append_nil, ← nil_append (ops.flatMap Op.written), ← holds_content stored]
    have kept := List.take_prefix kept ((ops.foldl (Op.run md5) newIntFile).fd.drop headSz)
    exact kept.trans ((prefix_append _ _).drop headSz)
  obtain ⟨items, lost, left, split, content, x, others, next, inside, proper⟩ :=
    cut_items (x := []) ⟨[], [], rfl, nil_prefix,
      (headerSz_le_item md5 []).trans_lt' (by decide)⟩ cut
  obtain ⟨old, new⟩ := forall_mem_append.mp small
  rw [split] at old decodes
  obtain ⟨whole, torn⟩ := forall_mem_append.mp old
  have bounded : ∀ y ∈ lost ++ [[]], y.length < 2 ^ 32 := forall_mem_append.mpr ⟨torn, by decide⟩
  rw [next] at bounded
  have repaired : repair md5 binaryToTerm cuts _ = _ := repair_begins cuts
    (forall_mem_append.mpr ⟨whole, forall_mem_singleton.mpr (bounded x mem_cons_self)⟩)
    (fun y member => by rw [caught, (forall_mem_append.mp decodes).1 y member]; rfl) ⟨x, [], rfl,
      inside, proper⟩
  have holds : Holds md5 ⟨newIntFile.fd ++ items.flatMap (item md5), 0, []⟩ items :=
    ⟨newIntFile.fd, rfl, append_nil _⟩
  refine ⟨items, lost, _, split, content ▸ repaired, rfl, ?_, ?_, ?_⟩
  · rw [content, logl_eq]
    exact prefix_append _ _
  · intro y first
    obtain ⟨later, rfl⟩ := head?_eq_some_iff.mp first
    obtain ⟨rfl, -⟩ := cons.inj next
    rw [content, logl_eq]
    simpa using proper
  · intro counts positive enough
    have start : Follows md5 ⟨0, .noBytes none⟩ (([] : List Bytes).flatMap (item md5)).length
        (items ++ more.flatMap Op.written) := rfl
    exact (chunks_rest (forall_mem_append.mpr ⟨whole, new⟩) positive enough
      (foldl_run_holds holds) start).1

/-- Of two items, the last five bytes are lost. The first one is read before what is logged
later. -/
theorem crash_keeps_first_item : ∃ md5 r, repair md5 (fun _ => some .other) (fun _ => 2)
      ((([Op.log [[1], [2, 3]], .sync].foldl (Op.run md5) newIntFile).fd.drop headSz).take 14) =
        some r ∧
    r.recoveredTerms = 1 ∧ chunks md5 3 [1, 1, 1] (log md5 r.fdC [[4]]) ⟨0, .noBytes none⟩ =
      some ([[1], [4]], .eof) := by
  obtain ⟨items, lost, r, split, repaired, count, inside, next, reads⟩ := crash_keeps_whole_items
    (fun _ => ⟨replicate 16 0, rfl⟩) (fun _ => some .other) (fun _ => 2) [.log [[1], [2, 3]],
      .sync] [.log [[4]]] 14
    (by decide) (by decide)
  change [[1], [2, 3]] = items ++ lost at split
  rcases items with _ | ⟨first, _ | ⟨second, rest⟩⟩
  · obtain rfl : lost = [[1], [2, 3]] := split.symm
    exact absurd (next _ rfl) (by decide)
  · obtain ⟨rfl, rfl⟩ := cons.inj split
    exact ⟨_, r, repaired, count, reads [1, 1, 1] (by decide) (by decide)⟩
  · obtain ⟨rfl, others⟩ := cons.inj split
    obtain ⟨rfl, none⟩ := cons.inj others
    obtain ⟨rfl, rfl⟩ := append_eq_nil_iff.mp none.symm
    exact absurd inside (by decide)

end Otp.DiskLog
