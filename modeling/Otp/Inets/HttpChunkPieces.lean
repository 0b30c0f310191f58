import Otp.Inets.HttpChunk
import Mathlib.Data.List.Infix

/-! Chunked bodies that arrive in pieces. -/

namespace Otp.Inets

open List
  (append_assoc append_nil exists_cons_of_ne_nil foldl_cons prefix_append prefix_cons_iff prefix_refl)
open Otp.Library.TailCalls

/-- The answer or error, if there is one. -/
def Outcome.final : Outcome → Option Outcome
  | .mfa _ => none
  | outcome => some outcome

/-- The body is below `maxBodySize`. -/
def Info.Below (info : Info) : Prop := info.maxBodySize.all fun max => info.accLength < max

/-- The data behind a chunk is the last chunk, as `decode_data` knows it. -/
def Last (data : Bytes) : Prop := [zero, semicolon] <+: data ∨ zero :: crlf <+: data

/-- Where the data may end and `more` follow. Behind a chunk `decode_data` looks ahead for the
last chunk and checks the size of the body, except where the data ends. -/
def Call.Safe (more : Bytes) : Call → Prop
  | .decodeData chunkSize totalChunk info =>
    0 ≤ chunkSize ∧ chunkSize ≤ totalChunk.length →
      let tail := totalChunk.drop chunkSize.toNat
      tail ≠ crlf ++ [zero, semicolon] ∧
        (tail = crlf → (Last more → info.maxHeaderSize = none) ∧
          (¬ Last more → more = [] ∨ info.Below)) ∧
        (tail = crlf ++ [zero] ∨ tail = crlf ++ [zero, cr] → Last (tail.drop 2 ++ more) →
          info.maxHeaderSize = none ∧ info.Below)
  | _ => True

/-- More data makes no difference to a call. -/
def Call.Kept (more : Bytes) (call : Call) : Prop :=
  (∀ next, step call = .inl next →
    (decoder.run (call.append more)).final = (decoder.run (next.append more)).final) ∧
  ∀ outcome, step call = .inr outcome → (decoder.run (call.append more)).final =
    (outcome.resume more).final

theorem run_inl (called : step call = .inl next) : decoder.run call = decoder.run next :=
  @Program.run_call _ _ decoder _ _ called

theorem run_inr (ended : step call = .inr outcome) : decoder.run call = outcome :=
  @Program.run_outcome _ _ decoder _ _ ended

theorem kept_next (called : step call = .inl next)
    (grown : (decoder.run (call.append more)).final = (decoder.run (next.append more)).final) :
    call.Kept more := by
  constructor
  · intro other same
    rw [called] at same
    cases same
    exact grown
  · intro outcome same
    rw [called] at same
    cases same

theorem kept_call (called : step call = .inl next)
    (grown : step (call.append more) = .inl (next.append more)) : call.Kept more :=
  kept_next called (by rw [run_inl grown])

theorem kept_outcome (ended : step call = .inr outcome)
    (grown : (decoder.run (call.append more)).final = (outcome.resume more).final) :
    call.Kept more := by
  constructor
  · intro next same
    rw [ended] at same
    cases same
  · intro other same
    rw [ended] at same
    cases same
    exact grown

theorem kept_mfa (ended : step call = .mfa call) (more : Bytes) : call.Kept more :=
  kept_outcome ended rfl

theorem kept_throw (ended : step call = .throw error)
    (grown : step (call.append more) = .throw error) : call.Kept more :=
  kept_outcome ended (by rw [run_inr grown]; rfl)

theorem prefix_crlf (inside : data <+: crlf) : data = [] ∨ data = [cr] ∨ data = crlf := by
  simpa [crlf] using (List.mem_inits _ _).mpr inside

theorem ne_of_not_start {pattern : Bytes} (apart : ¬ pattern <+: data) : data ≠ pattern := by
  rintro rfl
  exact apart (prefix_refl _)

theorem nonempty_of_crlf (line : crlf <+: data) : data ≠ [] := by
  rintro rfl
  exact absurd line (by decide)

theorem crlf_append (line : crlf <+: data) {more : Bytes} :
    crlf <+: data ++ more ∧ (data ++ more).drop 2 = data.drop 2 ++ more :=
  ⟨line.trans (prefix_append _ _), List.drop_append_of_le_length line.length_le⟩

theorem not_crlf_append (line : ¬ crlf <+: data) (some : data ≠ []) (two : data ≠ [cr])
    {more : Bytes} : ¬ crlf <+: data ++ more ∧ data ++ more ≠ [cr] := by
  constructor
  · rw [prefix_append_iff]
    · exact line
    · intro inside
      rcases prefix_crlf inside with same | same | same
      · exact some same
      · exact two same
      · exact line (same ▸ prefix_refl _)
  · intro same
    rcases List.append_eq_singleton_iff.mp same with ⟨empty, -⟩ | ⟨single, -⟩
    · exact some empty
    · exact two single

section Size

variable {data rest hexList : Bytes} {accHeaderSize : Nat} {info : Info}

/-- The header is not too long. -/
def Info.Short (info : Info) (accHeaderSize : Nat) : Prop :=
  ∀ max ∈ info.maxHeaderSize, (accHeaderSize : Int) ≤ max

theorem short_iff : ¬ (info.maxHeaderSize.any fun max => (accHeaderSize : Int) > max) = true ↔
    info.Short accHeaderSize := by
  unfold Info.Short
  cases info.maxHeaderSize <;> simp

section

variable {info : Info} {accHeaderSize : Nat} (short : info.Short accHeaderSize)

include short

theorem decodeSize_empty :
    step (.decodeSize [] hexList accHeaderSize info) =
      .mfa (.decodeSize [] hexList accHeaderSize info) := by
  rw [step, decodeSize, if_neg (short_iff.mpr short)]

theorem decodeSize_bad (line : crlf <+: data)
    (size : hexlistToInteger (hexList.dropWhile (· = 32)).reverse = none) :
    step (.decodeSize data hexList accHeaderSize info) = .throw (.chunkSize hexList.reverse) := by
  obtain ⟨octet, rest, rfl⟩ := exists_cons_of_ne_nil (nonempty_of_crlf line)
  simp only [step, decodeSize, if_neg (short_iff.mpr short), if_pos line, size]

theorem decodeSize_zero (line : crlf <+: data)
    (size : hexlistToInteger (hexList.dropWhile (· = 32)).reverse = some 0) :
    step (.decodeSize data hexList accHeaderSize info) =
      .inl (.ignoreExtensions data (remaingSize info.maxHeaderSize accHeaderSize) info.maxHeaderSize
        (.decodeTrailer [] [] [] info.body (integerToList info.accLength 10))) := by
  obtain ⟨octet, rest, rfl⟩ := exists_cons_of_ne_nil (nonempty_of_crlf line)
  simp only [step, decodeSize, if_neg (short_iff.mpr short), if_pos line, size, if_true]

theorem decodeSize_size (line : crlf <+: data)
    (size : hexlistToInteger (hexList.dropWhile (· = 32)).reverse = some chunkSize)
    (nonzero : chunkSize ≠ 0) :
    step (.decodeSize data hexList accHeaderSize info) =
      .inl (.decodeData chunkSize
        (data.drop 2) { info with accLength := chunkSize + info.accLength }) := by
  obtain ⟨octet, rest, rfl⟩ := exists_cons_of_ne_nil (nonempty_of_crlf line)
  simp only [step, decodeSize, if_neg (short_iff.mpr short), if_pos line, size, if_neg nonzero]

theorem decodeSize_semicolon : step (.decodeSize (semicolon :: rest) hexList accHeaderSize info) =
      .inl (.ignoreExtensions rest (remaingSize info.maxHeaderSize accHeaderSize) info.maxHeaderSize
        (.decodeSize [] hexList accHeaderSize info)) := by
  have line : ¬ crlf <+: semicolon :: rest := by
    intro line
    exact absurd (List.cons_prefix_cons.mp line).1 (by decide)
  simp only [step, decodeSize, if_neg (short_iff.mpr short), if_neg line, if_true]

theorem decodeSize_cr :
    step (.decodeSize [cr] hexList accHeaderSize info) =
      .mfa (.decodeSize [cr] hexList accHeaderSize info) := by
  simp only [step, decodeSize, if_neg (short_iff.mpr short)]
  rfl

theorem decodeSize_octet (line : ¬ crlf <+: octet :: rest) (plain : octet ≠ semicolon)
    (two : octet :: rest ≠ [cr]) :
    step (.decodeSize (octet :: rest) hexList accHeaderSize info) =
      .inl (.decodeSize rest (octet :: hexList) (accHeaderSize + 1) info) := by
  simp only [step, decodeSize, if_neg (short_iff.mpr short), if_neg line, if_neg plain, if_neg two]

end

theorem decodeSize_kept : (Call.decodeSize data hexList accHeaderSize info).Kept more := by
  by_cases short : info.Short accHeaderSize
  case neg =>
    have long := not_not.mp (mt short_iff.mp short)
    exact kept_throw (if_pos long) (if_pos long)
  by_cases line : crlf <+: data
  · obtain ⟨still, dropped⟩ := crlf_append line
    cases size : hexlistToInteger (hexList.dropWhile (· = 32)).reverse with
    | none => exact kept_throw (decodeSize_bad short line size) (decodeSize_bad short still size)
    | some chunkSize =>
      by_cases nonzero : chunkSize = 0
      · cases nonzero
        exact kept_call (decodeSize_zero short line size) (decodeSize_zero short still size)
      · refine kept_call (decodeSize_size short line size nonzero) ?_
        rw [Call.append, decodeSize_size short still size nonzero, dropped]
        rfl
  cases data with
  | nil => exact kept_mfa (decodeSize_empty short) more
  | cons octet rest =>
    by_cases two : octet :: rest = [cr]
    · rw [two]
      exact kept_mfa (decodeSize_cr short) more
    by_cases plain : octet = semicolon
    · cases plain
      exact kept_call (decodeSize_semicolon short) (decodeSize_semicolon short)
    · obtain ⟨still, longer⟩ := not_crlf_append line (List.cons_ne_nil _ _) two
      exact kept_call (decodeSize_octet short line plain two)
        (decodeSize_octet short still plain longer)

end Size

section Extensions

variable {data rest : Bytes} {remainingSize totalMaxHeaderSize : Limit}
  {nextFunction : NextFunction}

/-- The call behind the extensions. -/
def NextFunction.call (data : Bytes) (remainingSize totalMaxHeaderSize : Limit) :
    NextFunction → Call
  | .decodeTrailer rest header headers body bodyLength =>
    .decodeTrailer (rest ++ data) header headers body bodyLength remainingSize totalMaxHeaderSize
  | .decodeSize rest hexList accHeaderSize info =>
    .decodeSize (rest ++ data) hexList accHeaderSize info

theorem ignoreExtensions_line (short : remainingSize ≠ some 0) (line : crlf <+: data) :
    step (.ignoreExtensions data remainingSize totalMaxHeaderSize nextFunction) =
      .inl (nextFunction.call data remainingSize totalMaxHeaderSize) := by
  obtain ⟨octet, rest, rfl⟩ := exists_cons_of_ne_nil (nonempty_of_crlf line)
  simp only [step, ignoreExtensions, if_neg short, if_pos line]
  cases nextFunction <;> rfl

theorem ignoreExtensions_octet (short : remainingSize ≠ some 0) (line : ¬ crlf <+: octet :: rest)
    (two : octet :: rest ≠ [cr]) :
    step (.ignoreExtensions (octet :: rest) remainingSize totalMaxHeaderSize nextFunction) =
      .inl (.ignoreExtensions rest
        (remaingSize remainingSize 1) totalMaxHeaderSize nextFunction) := by
  simp only [step, ignoreExtensions, if_neg short, if_neg line, if_neg two]

/-- Nothing, or half the end of the line. -/
theorem ignoreExtensions_short (short : remainingSize ≠ some 0) (part : data = [] ∨ data = [cr]) :
    step (.ignoreExtensions data remainingSize totalMaxHeaderSize nextFunction) =
      .mfa (.ignoreExtensions data remainingSize totalMaxHeaderSize nextFunction) := by
  rcases part with rfl | rfl
  · simp only [step, ignoreExtensions, if_neg short]
  · simp only [step, ignoreExtensions, if_neg short]
    rfl

theorem ignoreExtensions_kept :
    (Call.ignoreExtensions data remainingSize totalMaxHeaderSize nextFunction).Kept more := by
  by_cases short : remainingSize = some 0
  · exact kept_throw (if_pos short) (if_pos short)
  by_cases line : crlf <+: data
  · refine kept_call (ignoreExtensions_line short line) ?_
    rw [Call.append, ignoreExtensions_line short (crlf_append line).1]
    cases nextFunction <;> simp only [NextFunction.call, Call.append, append_assoc]
  by_cases part : data = [] ∨ data = [cr]
  · exact kept_mfa (ignoreExtensions_short short part) more
  · rw [not_or] at part
    cases data with
    | nil => exact absurd rfl part.1
    | cons octet rest =>
      obtain ⟨still, longer⟩ := not_crlf_append line part.1 part.2
      exact kept_call (ignoreExtensions_octet short line part.2)
        (ignoreExtensions_octet short still longer)

end Extensions

section Trailer

variable {data rest header : Bytes} {headers : List Bytes} {body bodyLength : Bytes}
  {remainingSize totalMaxHeaderSize : Limit}

theorem short_of_start (inside : data <+: crlf ++ crlf) (notEnd : ¬ crlf ++ crlf <+: data) :
    data = [] ∨ data = crlf ++ [cr] ∨ data = crlf ∨ data = [cr] := by
  have starts : data = [] ∨ data = [cr] ∨ data = crlf ∨ data = crlf ++ [cr] ∨
    data = crlf ++ crlf := by
    simpa [crlf] using (List.mem_inits _ _).mpr inside
  rcases starts with same | same | same | same | rfl
  · exact .inl same
  · exact .inr (.inr (.inr same))
  · exact .inr (.inr (.inl same))
  · exact .inr (.inl same)
  · exact absurd (prefix_refl _) notEnd

theorem not_short (apart : ¬ data <+: crlf ++ crlf) :
    ¬ (data = crlf ++ [cr] ∨ data = crlf ∨ data = [cr]) := by
  rintro (rfl | rfl | rfl)
  all_goals exact apart (by decide)

section

variable (short : remainingSize ≠ some 0)

include short

theorem decodeTrailer_end (ends : crlf ++ crlf <+: data) :
    ∃ found, ∀ more, step (.decodeTrailer (data ++ more) header headers body bodyLength
      remainingSize totalMaxHeaderSize) =
      .inr (.ok ((text "content-length:" ++ bodyLength) :: found)
        (body ++ (data.drop 4 ++ more))) := by
  refine ⟨if header = [] then headers else header.reverse :: headers, fun more => ?_⟩
  have still : crlf ++ crlf <+: data ++ more := ends.trans (prefix_append _ _)
  have dropped : (data ++ more).drop 4 = data.drop 4 ++ more :=
    List.drop_append_of_le_length ends.length_le
  generalize data ++ more = whole at still dropped
  rw [← dropped]
  obtain ⟨octet, rest, rfl⟩ :=
    exists_cons_of_ne_nil (nonempty_of_crlf ((prefix_append _ _).trans still))
  simp only [step, decodeTrailer, if_neg short, if_pos still]
  by_cases fresh : header = [] ∧ headers = []
  · rw [if_pos fresh, if_pos fresh.1, fresh.2]
  · rw [if_neg fresh]

theorem decodeTrailer_short (part : data = [] ∨ data = crlf ++ [cr] ∨ data = crlf ∨ data = [cr]) :
    step (.decodeTrailer data header headers body bodyLength remainingSize totalMaxHeaderSize) =
      .mfa (.decodeTrailer data header headers body bodyLength remainingSize
        totalMaxHeaderSize) := by
  rcases part with rfl | rfl | rfl | rfl
  all_goals
    simp only [step, decodeTrailer, if_neg short]
    try rfl

theorem decodeTrailer_line (apart : ¬ data <+: crlf ++ crlf) (notEnd : ¬ crlf ++ crlf <+: data)
    (line : crlf <+: data) :
    step (.decodeTrailer data header headers body bodyLength remainingSize totalMaxHeaderSize) =
      .inl (.decodeTrailer (data.drop 2) []
        (header.reverse :: headers) body bodyLength remainingSize
          totalMaxHeaderSize) := by
  obtain ⟨octet, rest, rfl⟩ := exists_cons_of_ne_nil (nonempty_of_crlf line)
  simp only [step, decodeTrailer, if_neg short, if_neg notEnd, if_neg (not_short apart),
    if_pos line]

theorem decodeTrailer_octet (apart : ¬ octet :: rest <+: crlf ++ crlf)
    (line : ¬ crlf <+: octet :: rest) :
    step (.decodeTrailer (octet :: rest) header headers body bodyLength remainingSize
      totalMaxHeaderSize) =
      .inl (.decodeTrailer rest (octet :: header) headers body bodyLength
        (remaingSize remainingSize 1)
          totalMaxHeaderSize) := by
  have notEnd : ¬ crlf ++ crlf <+: octet :: rest :=
    fun ends => line ((prefix_append _ _).trans ends)
  simp only [step, decodeTrailer, if_neg short, if_neg notEnd, if_neg (not_short apart),
    if_neg line]

end

theorem decodeTrailer_kept :
    (Call.decodeTrailer data header headers body bodyLength remainingSize totalMaxHeaderSize).Kept more := by
  by_cases short : remainingSize = some 0
  · exact kept_throw (if_pos short) (if_pos short)
  by_cases ends : crlf ++ crlf <+: data
  · obtain ⟨found, grown⟩ := decodeTrailer_end short ends
    refine kept_outcome (append_nil data ▸ grown []) ?_
    rw [Call.append, run_inr (grown more)]
    simp only [Outcome.resume, append_nil, append_assoc]
  by_cases inside : data <+: crlf ++ crlf
  · exact kept_mfa (decodeTrailer_short short (short_of_start inside ends)) more
  have still : ¬ data ++ more <+: crlf ++ crlf :=
    fun whole => inside ((prefix_append _ _).trans whole)
  have notEnd : ¬ crlf ++ crlf <+: data ++ more := by rwa [prefix_append_iff inside]
  by_cases line : crlf <+: data
  · obtain ⟨line', dropped⟩ := crlf_append line
    refine kept_call (decodeTrailer_line short inside ends line) ?_
    rw [Call.append, decodeTrailer_line short still notEnd line', dropped]
    rfl
  · cases data with
    | nil => exact absurd (List.nil_prefix) inside
    | cons octet rest =>
      have line' : ¬ crlf <+: octet :: rest ++ more := by
        rwa [prefix_append_iff (fun first => inside (first.trans (prefix_append _ _)))]
      exact kept_call (decodeTrailer_octet short inside line)
        (decodeTrailer_octet short still line')

end Trailer

section Data

variable {data rest : Bytes} {info : Info}

/-- What `decode_data` does behind the data of a chunk. -/
theorem decodeData_append (data tail : Bytes) (info : Info) :
    step (.decodeData data.length (data ++ tail) info) =
      if tail = crlf ++ [zero, semicolon] then
        .inr (.mfa (.ignoreExtensions []
          (.decodeTrailer [] [] [] (info.body ++ data) (integerToList info.accLength 10))))
      else if crlf ++ [zero, semicolon] <+: tail then
        .inl (.ignoreExtensions (tail.drop 4) info.maxHeaderSize info.maxHeaderSize
          (.decodeTrailer [] [] [] (info.body ++ data) (integerToList info.accLength 10)))
      else if tail = crlf ++ zero :: crlf then
        .mfa (.decodeTrailer crlf [] [] (info.body ++ data)
          (integerToList info.accLength 10) info.maxHeaderSize
          info.maxHeaderSize)
      else if crlf ++ zero :: crlf <+: tail then
        .inl (.decodeTrailer (crlf ++ tail.drop 5) [] [] (info.body ++ data)
          (integerToList info.accLength 10)
          info.maxHeaderSize info.maxHeaderSize)
      else if tail = crlf then .mfa (.decodeSize [] [] 0 { info with body := info.body ++ data })
      else if crlf <+: tail then
        if info.maxBodySize.all fun max => info.accLength < max then
          .inl (.decodeSize (tail.drop 2) [] 0 { info with body := info.body ++ data })
        else .throw (.bodyTooBig info.maxBodySize)
      else .mfa (.decodeData data.length (data ++ tail) info) := by
  rw [step, decodeData, if_pos (by simp)]
  simp only [Int.toNat_natCast, List.take_left, List.drop_left]

theorem decodeData_semicolon :
    step (.decodeData data.length (data ++ (crlf ++ [zero, semicolon])) info) =
      .inr (.mfa (.ignoreExtensions []
        (.decodeTrailer [] [] [] (info.body ++ data) (integerToList info.accLength 10)))) := by
  rw [decodeData_append, if_pos rfl]

theorem decodeData_extensions :
    step (.decodeData data.length (data ++ (crlf ++ zero :: semicolon :: octet :: rest)) info) =
      .inl (.ignoreExtensions (octet :: rest) info.maxHeaderSize info.maxHeaderSize
        (.decodeTrailer [] [] [] (info.body ++ data) (integerToList info.accLength 10))) := by
  rw [decodeData_append, if_neg (by simp)]
  rfl

theorem not_extensions (rest : Bytes) :
    ¬ crlf ++ [zero, semicolon] <+: crlf ++ zero :: (crlf ++ rest) := by
  simp [crlf, semicolon, cr]

theorem decodeData_zero : step (.decodeData data.length (data ++ (crlf ++ zero :: crlf)) info) =
      .mfa (.decodeTrailer crlf [] [] (info.body ++ data)
        (integerToList info.accLength 10) info.maxHeaderSize
        info.maxHeaderSize) := by
  have other := not_extensions []
  rw [append_nil] at other
  rw [decodeData_append, if_neg (ne_of_not_start other), if_neg other, if_pos rfl]

theorem decodeData_trailers (data : Bytes) (octet : UInt8) (rest : Bytes) (info : Info) :
    step (.decodeData data.length (data ++ (crlf ++ zero :: (crlf ++ octet :: rest))) info) =
      .inl (.decodeTrailer (crlf ++ octet :: rest) [] [] (info.body ++ data)
        (integerToList info.accLength 10)
        info.maxHeaderSize info.maxHeaderSize) := by
  have other := not_extensions (octet :: rest)
  rw [decodeData_append, if_neg (ne_of_not_start other), if_neg other, if_neg (by simp)]
  rfl

theorem decodeData_crlf (data : Bytes) (info : Info) :
    step (.decodeData data.length (data ++ crlf) info) =
      .mfa (.decodeSize [] [] 0 { info with body := info.body ++ data }) := by
  rw [decodeData_append, if_neg (by decide), if_neg (by decide), if_neg (by decide),
    if_neg (by decide), if_pos rfl]

theorem decodeData_more (info : Info) (some : rest ≠ []) (last : ¬ Last rest) (data : Bytes) :
    step (.decodeData data.length (data ++ (crlf ++ rest)) info) =
      if info.maxBodySize.all fun max => info.accLength < max then
        .inl (.decodeSize rest [] 0 { info with body := info.body ++ data })
      else .throw (.bodyTooBig info.maxBodySize) := by
  rw [Last, not_or] at last
  have semi : ¬ crlf ++ [zero, semicolon] <+: crlf ++ rest := by
    rw [List.prefix_append_right_inj]
    exact last.1
  have line : ¬ crlf ++ zero :: crlf <+: crlf ++ rest := by
    rw [List.prefix_append_right_inj]
    exact last.2
  rw [decodeData_append, if_neg (ne_of_not_start semi), if_neg semi, if_neg (ne_of_not_start line),
    if_neg line, if_neg (by simpa using some)]
  rfl

theorem decodeData_short (line : ¬ crlf <+: tail) :
    step (.decodeData data.length (data ++ tail) info) =
      .mfa (.decodeData data.length (data ++ tail) info) := by
  have semi : ¬ crlf ++ [zero, semicolon] <+: tail :=
    fun fits => line ((prefix_append _ _).trans fits)
  have last : ¬ crlf ++ zero :: crlf <+: tail := fun fits => line ((prefix_append _ _).trans fits)
  rw [decodeData_append, if_neg (ne_of_not_start semi), if_neg semi, if_neg (ne_of_not_start last),
    if_neg last, if_neg (ne_of_not_start line), if_neg line]

/-! ### The last chunk -/

theorem last_cases (last : Last rest) : (∃ extensions, rest = zero :: semicolon :: extensions) ∨
    ∃ trailers, rest = zero :: (crlf ++ trailers) := by
  rcases last with ⟨tail, rfl⟩ | ⟨tail, rfl⟩
  · exact .inl ⟨tail, rfl⟩
  · exact .inr ⟨tail, rfl⟩

theorem decodeSize_last (free : info.maxHeaderSize = none) :
    decoder.run (.decodeSize (crlf ++ rest) [zero] 1 info) =
      decoder.run (.decodeTrailer (crlf ++ rest) [] [] info.body
        (integerToList info.accLength 10) none none) := by
  have short : info.Short 1 := by simp [Info.Short, free]
  have line : crlf <+: crlf ++ rest := prefix_append _ _
  rw [run_inl (decodeSize_zero short line (by decide)), free,
    run_inl (ignoreExtensions_line (by simp [remaingSize]) line)]
  rfl

/-- Extensions of the last chunk, once its size has been read and before. -/
theorem ignoreExtensions_last (info : Info) (free : info.maxHeaderSize = none)
    (extensions : Bytes) : (decoder.run (.ignoreExtensions extensions none none
        (.decodeTrailer [] [] [] info.body (integerToList info.accLength 10)))).final =
      (decoder.run (.ignoreExtensions extensions none none
        (.decodeSize [] [zero] 1 info))).final := by
  induction extensions with
  | nil =>
    rw [run_inr (ignoreExtensions_short (by simp) (.inl rfl)),
      run_inr (ignoreExtensions_short (by simp) (.inl rfl))]
    rfl
  | cons octet rest ih =>
    by_cases line : crlf <+: octet :: rest
    · rw [run_inl (ignoreExtensions_line (by simp) line),
        run_inl (ignoreExtensions_line (by simp) line)]
      obtain ⟨behind, same⟩ := line
      simp only [NextFunction.call, List.nil_append, ← same, decodeSize_last free]
    by_cases two : octet :: rest = [cr]
    · rw [two, run_inr (ignoreExtensions_short (by simp) (.inr rfl)),
        run_inr (ignoreExtensions_short (by simp) (.inr rfl))]
      rfl
    · rw [run_inl (ignoreExtensions_octet (by simp) line two),
        run_inl (ignoreExtensions_octet (by simp) line two)]
      exact ih

theorem decodeSize_digit (short : info.Short 0) (rest : Bytes) :
    decoder.run (.decodeSize (zero :: rest) [] 0 info) =
      decoder.run (.decodeSize rest [zero] 1 info) := by
  have line : ¬ crlf <+: zero :: rest :=
    fun line => absurd (List.cons_prefix_cons.mp line).1 (by decide)
  exact run_inl (decodeSize_octet short line (by decide) fun two => absurd (List.cons.inj two).1
    (by decide))

/-- The last chunk is read the same by `decode_data` and by `decode_size`, if headers have no
limit. -/
theorem decodeData_last (free : info.maxHeaderSize = none) (last : Last rest) :
    (decoder.run (.decodeData data.length (data ++ (crlf ++ rest)) info)).final =
      (decoder.run (.decodeSize rest [] 0 { info with body := info.body ++ data })).final := by
  obtain ⟨maxBodySize, body, accLength, maxHeaderSize⟩ := info
  cases free
  have short (size : Nat) : (Info.mk maxBodySize (body ++ data) accLength none).Short size := by
    simp [Info.Short]
  rcases last_cases last with ⟨extensions, rfl⟩ | ⟨trailers, rfl⟩
  · have same := ignoreExtensions_last ⟨maxBodySize, body ++ data, accLength, none⟩ rfl extensions
    rw [decodeSize_digit (short 0), run_inl (decodeSize_semicolon (short 1))]
    refine Eq.trans ?_ same
    cases extensions with
    | nil =>
      rw [run_inr decodeData_semicolon, run_inr (ignoreExtensions_short (by simp) (.inl rfl))]
      rfl
    | cons octet extensions => rw [run_inl decodeData_extensions]
  · rw [decodeSize_digit (short 0), decodeSize_last rfl]
    cases trailers with
    | nil =>
      rw [append_nil, run_inr decodeData_zero,
        run_inr (decodeTrailer_short (by simp) (.inr (.inr (.inl rfl))))]
    | cons octet trailers => rw [run_inl (decodeData_trailers _ _ _ _)]

theorem last_of_append (last : Last (rest ++ more)) (before : ¬ Last rest) (some : rest ≠ []) :
    rest = [zero] ∨ rest = [zero, cr] := by
  rw [Last, not_or] at before
  rcases last with semi | line
  · have inside : rest <+: [zero, semicolon] := by
      by_contra apart
      exact before.1 ((prefix_append_iff apart more).mp semi)
    have starts : rest = [] ∨ rest = [zero] ∨ rest = [zero, semicolon] := by
      simpa using (List.mem_inits _ _).mpr inside
    rcases starts with empty | same | rfl
    · exact absurd empty some
    · exact .inl same
    · exact absurd (prefix_refl _) before.1
  · have inside : rest <+: zero :: crlf := by
      by_contra apart
      exact before.2 ((prefix_append_iff apart more).mp line)
    rcases prefix_cons_iff.mp inside with empty | ⟨tail, rfl, second⟩
    · exact absurd empty some
    rcases prefix_crlf second with rfl | rfl | rfl
    · exact .inl rfl
    · exact .inr rfl
    · exact absurd (prefix_refl _) before.2

/-- Behind a chunk `decode_data` goes on as `decode_size` does. -/
theorem decodeData_next (some : rest ≠ []) (free : Last rest → info.maxHeaderSize = none)
    (below : ¬ Last rest → info.Below) :
    (decoder.run (.decodeData data.length (data ++ (crlf ++ rest)) info)).final =
      (decoder.run (.decodeSize rest [] 0 { info with body := info.body ++ data })).final := by
  by_cases last : Last rest
  · exact decodeData_last (free last) last
  · rw [run_inl ((decodeData_more info some last data).trans (if_pos (below last)))]

/-! ### Data that ends behind a chunk -/

/-- The length of the size that announced a chunk is within the limit. -/
def Info.Sized (info : Info) : Prop := ∀ max ∈ info.maxHeaderSize, 1 ≤ max

/-- Behind the end of a chunk. -/
theorem decodeData_kept_behind (sized : info.Sized) (notSemi : rest ≠ [zero, semicolon])
    (ended : rest = [] → (Last more → info.maxHeaderSize = none) ∧
      (¬ Last more → more = [] ∨ info.Below))
    (part : rest = [zero] ∨ rest = [zero, cr] → Last (rest ++ more) → info.maxHeaderSize = none ∧
      info.Below) :
    (Call.decodeData data.length (data ++ (crlf ++ rest)) info).Kept more := by
  have grow (rest : Bytes) :
      (Call.decodeData data.length (data ++ (crlf ++ rest)) info).append more =
      .decodeData data.length (data ++ (crlf ++ (rest ++ more))) info := by
    simp only [Call.append, append_assoc]
  by_cases empty : rest = []
  · cases empty
    have here := decodeData_crlf data info
    rw [← append_nil crlf] at here
    refine kept_outcome here ?_
    obtain ⟨free, below⟩ := ended rfl
    by_cases finished : more = []
    · cases finished
      have short : ({ info with body := info.body ++ data } : Info).Short 0 := by
        intro max limited
        have bound := sized max limited
        omega
      rw [grow, append_nil, run_inr here]
      simp only [Outcome.resume, Call.append, append_nil]
      rw [run_inr (decodeSize_empty short)]
    · rw [grow]
      exact decodeData_next finished free (fun other => (below other).resolve_left finished)
  by_cases last : Last rest
  · rcases last_cases last with ⟨extensions, rfl⟩ | ⟨trailers, rfl⟩
    · cases extensions with
      | nil => exact absurd rfl notSemi
      | cons octet extensions =>
        refine kept_call decodeData_extensions ?_
        rw [grow]
        exact decodeData_extensions
    · cases trailers with
      | nil =>
        have limited : info.maxHeaderSize ≠ some 0 := fun none => absurd (sized 0 none) (by decide)
        rw [append_nil]
        refine kept_outcome decodeData_zero ?_
        rw [grow]
        cases more with
        | nil =>
          rw [append_nil, run_inr decodeData_zero]
          simp only [Outcome.resume, Call.append, append_nil]
          rw [run_inr (decodeTrailer_short limited (.inr (.inr (.inl rfl))))]
        | cons octet more =>
          rw [List.cons_append, run_inl (decodeData_trailers data octet more info)]
          rfl
      | cons octet trailers =>
        refine kept_call (decodeData_trailers data octet trailers info) ?_
        have joined := decodeData_trailers data octet (trailers ++ more) info
        simpa only [Call.append, append_assoc, List.cons_append] using joined
  · have here := decodeData_more info empty last data
    have longer : rest ++ more ≠ [] := fun none => empty (List.append_eq_nil_iff.mp none).1
    have special (later : Last (rest ++ more)) := part (last_of_append later last empty) later
    by_cases below : info.Below
    · refine kept_next (here.trans (if_pos below)) ?_
      rw [grow]
      exact decodeData_next longer (fun later => (special later).1) (fun _ => below)
    · have still : ¬ Last (rest ++ more) := fun later => below (special later).2
      refine kept_throw (here.trans (if_neg below)) ?_
      rw [grow]
      exact (decodeData_more info longer still data).trans (if_neg below)

theorem decodeData_kept (sized : info.Sized)
    (safe : (Call.decodeData chunkSize totalChunk info).Safe more) : (Call.decodeData chunkSize
      totalChunk info).Kept more := by
  by_cases fits : 0 ≤ chunkSize ∧ chunkSize ≤ totalChunk.length
  case neg =>
    refine kept_mfa ?_ more
    exact if_neg fits
  obtain ⟨notSemi, ended, part⟩ := safe fits
  obtain ⟨data, tail, rfl, rfl⟩ : ∃ data tail, totalChunk = data ++ tail ∧
    chunkSize = data.length := by
    refine ⟨totalChunk.take chunkSize.toNat, totalChunk.drop chunkSize.toNat,
      (List.take_append_drop _ _).symm, ?_⟩
    rw [List.length_take]
    omega
  simp only [Int.toNat_natCast, List.drop_left] at notSemi ended part
  by_cases line : crlf <+: tail
  · obtain ⟨rest, rfl⟩ := line
    refine decodeData_kept_behind sized ?_ ?_ ?_
    · rintro rfl
      exact notSemi rfl
    · rintro rfl
      exact ended rfl
    · rintro (rfl | rfl)
      · exact part (.inl rfl)
      · exact part (.inr rfl)
  · exact kept_mfa (decodeData_short line) more

end Data

/-- The header size counts the digits of a size, so that a chunk with data has a positive limit. -/
def Call.Counted : Call → Prop
  | .decodeSize _ hexList accHeaderSize _ => hexList.length ≤ accHeaderSize
  | .ignoreExtensions _ _ _ (.decodeSize _ hexList accHeaderSize _) =>
    hexList.length ≤ accHeaderSize
  | .decodeData _ _ info => info.Sized
  | _ => True

theorem kept_of_safe {call : Call} (counted : call.Counted) (safe : call.Safe more) :
    call.Kept more := by
  cases call with
  | decodeSize => exact decodeSize_kept
  | ignoreExtensions => exact ignoreExtensions_kept
  | decodeData => exact decodeData_kept counted safe
  | decodeTrailer => exact decodeTrailer_kept

theorem counted_append {call : Call} (counted : call.Counted) : (call.append more).Counted := by
  cases call with
  | decodeSize => exact counted
  | ignoreExtensions _ _ _ nextFunction => cases nextFunction <;> exact counted
  | decodeData => exact counted
  | decodeTrailer => trivial

def Step.Counted : Step → Prop
  | .inl next => next.Counted
  | .inr (.mfa (.call next)) => next.Counted
  | _ => True

theorem sized_of_size {hexList : Bytes} {info : Info} (counted : hexList.length ≤ accHeaderSize)
    (short : info.Short accHeaderSize)
    (size : hexlistToInteger (hexList.dropWhile (· = 32)).reverse = some chunkSize) :
    info.Sized := by
  intro max limited
  have bound := short max limited
  have digits : hexList ≠ [] := by
    rintro rfl
    cases size
  have positive := List.length_pos_iff.mpr digits
  omega

theorem decodeSize_counted (counted : hexList.length ≤ accHeaderSize) :
    (decodeSize data hexList accHeaderSize info).Counted := by
  unfold decodeSize
  split
  case isTrue => trivial
  case isFalse short =>
    split
    · exact counted
    split
    · split
      · trivial
      · rename_i size
        split
        · trivial
        · exact sized_of_size counted (short_iff.mp short) size
    split
    · exact counted
    split
    · exact counted
    · exact Nat.succ_le_succ counted

theorem ignoreExtensions_counted
    (counted : (Call.ignoreExtensions data remainingSize totalMaxHeaderSize nextFunction).Counted) :
    (ignoreExtensions data remainingSize totalMaxHeaderSize nextFunction).Counted := by
  unfold ignoreExtensions
  cases nextFunction <;> dsimp only <;> repeat' split
  all_goals first | exact counted | trivial

theorem decodeData_counted (sized : info.Sized) :
    (decodeData chunkSize totalChunk info).Counted := by
  unfold decodeData
  dsimp only
  repeat' split
  all_goals first | exact sized | exact Nat.le_refl 0 | trivial

theorem decodeTrailer_counted :
    (decodeTrailer data header headers body bodyLength remainingSize totalMaxHeaderSize).Counted := by
  unfold decodeTrailer
  repeat' split
  all_goals trivial

theorem step_counted (counted : call.Counted) : (step call).Counted := by
  cases call with
  | decodeSize => exact decodeSize_counted counted
  | ignoreExtensions => exact ignoreExtensions_counted counted
  | decodeData => exact decodeData_counted counted
  | decodeTrailer => exact decodeTrailer_counted

theorem reaches_counted (counted : start.Counted) (reached : decoder.Reaches start call) :
    call.Counted := by
  refine reached.invariant (fun call next counted called => ?_) counted
  have still := step_counted counted
  rw [show step call = _ from called] at still
  exact still

theorem run_counted (counted : start.Counted) (ended : decoder.run start = .mfa (.call next)) :
    next.Counted := by
  obtain ⟨call, reached, last⟩ := @Program.exists_reaches_run _ _ decoder start
  have still := step_counted (reaches_counted counted reached)
  rw [show step call = _ from last, ended] at still
  exact still

/-- No piece ends where it matters. -/
def SafeCuts (start : Call) : List Bytes → Prop
  | [] => True
  | piece :: pieces =>
    (∀ call, decoder.Reaches start call → call.Safe (piece :: pieces).flatten) ∧
      ∀ call, decoder.run start = .mfa (.call call) → SafeCuts (call.append piece) pieces

theorem resume_final (counted : start.Counted)
    (safe : ∀ call, decoder.Reaches start call →
      call.Safe more) : (decoder.run (start.append more)).final =
      ((decoder.run start).resume more).final := by
  refine Program.view_grow Outcome.final (Call.append more)
    (fun outcome => outcome.resume more) start ?_ ?_
  · intro call next reached called
    exact (kept_of_safe (reaches_counted counted reached) (safe call reached)).1 next called
  · intro call outcome reached ended
    exact (kept_of_safe (reaches_counted counted reached) (safe call reached)).2 outcome ended

theorem append_append {call : Call} :
    (call.append piece).append more = call.append (piece ++ more) := by
  cases call <;> simp only [Call.append, append_assoc]

theorem foldl_resume_ok {pieces : List Bytes} :
    pieces.foldl Outcome.resume (.ok headers body) = .ok headers (body ++ pieces.flatten) := by
  induction pieces generalizing body with
  | nil => rw [List.flatten_nil, append_nil, List.foldl_nil]
  | cons piece pieces ih => rw [foldl_cons, Outcome.resume, ih, List.flatten_cons, append_assoc]

theorem foldl_resume_fixed (fixed : ∀ data, outcome.resume data = outcome) {pieces : List Bytes} :
    pieces.foldl Outcome.resume outcome = outcome := by
  induction pieces with
  | nil => rfl
  | cons piece pieces ih => rw [foldl_cons, fixed, ih]

theorem feed_final (counted : start.Counted) (safe : SafeCuts start pieces) :
    (pieces.foldl Outcome.resume (decoder.run start)).final =
      (decoder.run (start.append pieces.flatten)).final := by
  induction pieces generalizing start with
  | nil =>
    have same : start.append [] = start := by cases start <;> simp only [Call.append, append_nil]
    rw [List.flatten_nil, same, List.foldl_nil]
  | cons piece pieces ih =>
    obtain ⟨here, later⟩ := safe
    rw [resume_final counted here]
    cases ended : decoder.run start with
    | ok headers body => rw [foldl_resume_ok, Outcome.resume]
    | throw | functionClause => rw [foldl_resume_fixed fun _ => rfl, Outcome.resume]
    | mfa mfa =>
      cases mfa with
      | ignoreExtensions =>
        rw [foldl_cons, Outcome.resume, foldl_resume_fixed fun _ => rfl, Outcome.resume]
      | call call =>
        rw [foldl_cons, Outcome.resume,
          ih (counted_append (run_counted counted ended)) (later call ended),
          append_append, Outcome.resume, List.flatten_cons]

end Otp.Inets
