import Otp.Inets.HttpChunkPieces
import Mathlib.Data.Nat.Digits.Lemmas

/-! What the decoder makes of encoded chunks. -/

namespace Otp.Inets

open List
open Otp.Library.TailCalls

theorem digitValue_digit (small : d < 16) : digitValue (digit d) = some d := by
  have all : ∀ d < 16, digitValue (digit d) = some d := by decide
  exact all d small

theorem digitsValue_digits (digits : List Nat) (small : ∀ d ∈ digits, d < 16) (ui : Nat) :
    digitsValue 16 ui (digits.map digit) = some (digits.foldl (fun ui d => ui * 16 + d) ui) := by
  induction digits generalizing ui with
  | nil => rfl
  | cons d digits ih =>
    have first := small d mem_cons_self
    rw [map_cons, digitsValue, digitValue_digit first]
    simp only [Option.bind_eq_bind, Option.bind_some, if_pos first]
    exact ih (fun other member => small other (mem_cons_of_mem d member)) _

theorem foldl_digits (n : Nat) :
    (Nat.digits 16 n).reverse.foldl (fun ui d => ui * 16 + d) 0 = n := by
  rw [foldl_reverse]
  conv_rhs => rw [← Nat.ofDigits_digits 16 n, Nat.ofDigits_eq_foldr]
  congr 1
  funext d ui
  simp only [Nat.cast_id]
  omega

/-- The bytes of a size. -/
theorem mem_integerToHexlist {n : Nat} (member : byte ∈ integerToHexlist n) :
    ∃ d < 16, byte = digit d := by
  unfold integerToHexlist integerToList at member
  rw [if_neg (by omega)] at member
  split at member
  · exact ⟨0, by decide, mem_singleton.mp member⟩
  · obtain ⟨d, inside, same⟩ := mem_map.mp member
    exact ⟨d, Nat.digits_lt_base (by decide) (mem_reverse.mp inside), same.symm⟩

theorem digit_plain (small : d < 16) :
    digit d ≠ cr ∧ digit d ≠ semicolon ∧ digit d ≠ 32 ∧ digit d ≠ 45 ∧ digit d ≠ 43 := by
  have all : ∀ d < 16, digit d ≠ cr ∧ digit d ≠ semicolon ∧ digit d ≠ 32 ∧ digit d ≠ 45 ∧
    digit d ≠ 43 := by decide
  exact all d small

theorem hexlistToInteger_hexlist (positive : 0 < n) :
    hexlistToInteger (integerToHexlist (n : Nat)) = some (n : Int) := by
  have small : ∀ d ∈ (Nat.digits 16 n).reverse, d < 16 := fun d member =>
    Nat.digits_lt_base (by decide) (mem_reverse.mp member)
  have list : integerToHexlist n = (Nat.digits 16 n).reverse.map digit := by
    rw [integerToHexlist, integerToList, if_neg (by omega), if_neg (by omega), Int.natAbs_natCast]
  have sign (byte : UInt8) (rest : Bytes)
      (same : (Nat.digits 16 n).reverse.map digit = byte :: rest) :
      byte ≠ 45 ∧ byte ≠ 43 := by
    obtain ⟨d, inside, rfl⟩ :=
      mem_map.mp (same ▸ mem_cons_self : byte ∈ (Nat.digits 16 n).reverse.map digit)
    exact (digit_plain (small d inside)).2.2.2
  have nonempty : (Nat.digits 16 n).reverse.map digit ≠ [] := by
    simpa using (Nat.digits_ne_nil_iff_ne_zero.mpr positive.ne' : Nat.digits 16 n ≠ [])
  have value := digitsValue_digits _ small 0
  rw [foldl_digits] at value
  rw [list, hexlistToInteger, listToInteger]
  · dsimp only
    rw [if_neg nonempty, value]
    rfl
  · intro rest same
    exact (sign 45 rest same).1 rfl
  · intro rest same
    exact (sign 43 rest same).2 rfl

section Unlimited

variable {info : Info}

theorem short_unlimited (free : info.maxHeaderSize = none) (size : Nat) : info.Short size := by
  simp [Info.Short, free]

theorem decodeSize_digits (free : info.maxHeaderSize = none)
    (plain : ∀ byte ∈ digits, byte ≠ cr ∧ byte ≠ semicolon) :
    decoder.run (.decodeSize (digits ++ (crlf ++ rest)) hexList accHeaderSize info) =
      decoder.run (.decodeSize (crlf ++ rest) (digits.reverse ++ hexList)
        (accHeaderSize + digits.length) info) := by
  induction digits generalizing hexList accHeaderSize with
  | nil => rfl
  | cons octet digits ih =>
    obtain ⟨notCr, notSemicolon⟩ := plain octet mem_cons_self
    have line : ¬ crlf <+: octet :: (digits ++ (crlf ++ rest)) := fun line =>
      notCr (cons_prefix_cons.mp line).1.symm
    have two : octet :: (digits ++ (crlf ++ rest)) ≠ [cr] := fun two => notCr (cons.inj two).1
    rw [cons_append, run_inl (decodeSize_octet (short_unlimited free _) line notSemicolon two),
      ih fun byte member => plain byte (mem_cons_of_mem octet member)]
    rw [reverse_cons, append_assoc, Nat.add_right_comm]
    rfl

theorem encode_bytes (nonempty : chunk.bytes ≠ []) :
    encode chunk = integerToHexlist chunk.bytes.length ++ crlf ++ chunk.bytes ++ crlf := by
  cases chunk with
  | binary bytes => rfl
  | list parts =>
    rw [encode, if_neg]
    · rfl
    · rintro rfl
      exact nonempty rfl

/-- The size of an encoded chunk is read. -/
theorem decodeSize_encode (free : info.maxHeaderSize = none) (chunk : Chunk)
    (nonempty : chunk.bytes ≠ []) (rest : Bytes) :
    decoder.run (.decodeSize (encode chunk ++ rest) [] 0 info) =
      decoder.run (.decodeData chunk.bytes.length (chunk.bytes ++ (crlf ++ rest))
        { info with accLength := chunk.bytes.length + info.accLength }) := by
  have positive := length_pos_iff.mpr nonempty
  have bytes := fun byte member => @mem_integerToHexlist byte chunk.bytes.length member
  have shape : encode chunk ++ rest = integerToHexlist chunk.bytes.length ++
    (crlf ++ (chunk.bytes ++ (crlf ++ rest))) := by
    simp only [encode_bytes nonempty, append_assoc]
  have size : hexlistToInteger (((integerToHexlist chunk.bytes.length).reverse ++ []).dropWhile
    (· = 32)).reverse =
      some (chunk.bytes.length : Int) := by
    have spaces : (integerToHexlist chunk.bytes.length).reverse.dropWhile (· = 32) =
        (integerToHexlist chunk.bytes.length).reverse := by
      cases list : (integerToHexlist chunk.bytes.length).reverse with
      | nil => rfl
      | cons byte rest =>
        obtain ⟨d, small, rfl⟩ := bytes byte (mem_reverse.mp (list ▸ mem_cons_self))
        exact dropWhile_cons_of_neg (by simpa using (digit_plain small).2.2.1)
    rw [append_nil, spaces, reverse_reverse, hexlistToInteger_hexlist positive]
  rw [shape, decodeSize_digits free (fun byte member => ?_),
    run_inl (decodeSize_size (short_unlimited free _)
    (prefix_append _ _) size (by omega))]
  · rfl
  · obtain ⟨d, small, rfl⟩ := bytes byte member
    exact ⟨(digit_plain small).1, (digit_plain small).2.1⟩

theorem decodeSize_chunks {chunks : List Chunk} (nonempty : ∀ chunk ∈ chunks, chunk.bytes ≠ [])
    (some : rest ≠ []) (body : Bytes) (accLength : Int) :
    (decoder.run (.decodeSize (chunks.flatMap encode ++ rest) [] 0 ⟨none, body, accLength,
      none⟩)).final =
      (decoder.run (.decodeSize rest [] 0
        ⟨none, body ++ chunks.flatMap Chunk.bytes, (chunks.flatMap Chunk.bytes).length + accLength,
          none⟩)).final := by
  induction chunks generalizing body accLength with
  | nil => simp
  | cons chunk chunks ih =>
    have next : chunks.flatMap encode ++ rest ≠ [] := fun none => some (append_eq_nil_iff.mp none).2
    rw [flatMap_cons, append_assoc, decodeSize_encode rfl chunk (nonempty chunk mem_cons_self)]
    refine (decodeData_next next (fun _ => rfl) (fun _ => by simp [Info.Below])).trans ?_
    rw [ih fun other member => nonempty other (mem_cons_of_mem chunk member)]
    simp only [flatMap_cons, append_assoc, length_append, Nat.cast_add, Int.add_left_comm,
      Int.add_assoc]

/-- Trailers end at the first empty line, so what is behind one of them is behind the trailers. -/
theorem decodeTrailer_behind (front behind header : Bytes) (headers : List Bytes)
    (body bodyLength : Bytes) :
    ∃ found between,
      decoder.run (.decodeTrailer
        (front ++ (crlf ++ crlf ++ behind)) header headers body bodyLength none none) =
        .ok found (body ++ (between ++ behind)) := by
  have free : (none : Limit) ≠ some 0 := by simp
  by_cases here : crlf ++ crlf <+: front ++ (crlf ++ crlf ++ behind)
  · obtain ⟨found, ended⟩ := @decodeTrailer_end _ header headers body bodyLength none none free here
    obtain ⟨between, same⟩ : behind <:+ (front ++ (crlf ++ crlf ++ behind)).drop 4 := by
      refine suffix_of_suffix_length_le ?_ (drop_suffix 4 _) ?_
      · rw [← append_assoc]
        exact suffix_append _ _
      · simp [crlf]
        omega
    have stepped := ended []
    rw [append_nil, append_nil, ← same] at stepped
    exact ⟨_, between, run_inr stepped⟩
  have apart : ¬ front ++ (crlf ++ crlf ++ behind) <+: crlf ++ crlf := by
    intro inside
    have same := inside.eq_of_length_le (by simp; omega)
    exact here (same.symm ▸ prefix_refl (crlf ++ crlf))
  cases front with
  | nil => exact absurd (prefix_append _ _) here
  | cons first rest =>
    cases rest with
    | nil =>
      have line : ¬ crlf <+: first :: (crlf ++ crlf ++ behind) := by simp [crlf, cr, lf]
      refine run_inl (decodeTrailer_octet free apart line) ▸ ?_
      exact decodeTrailer_behind [] behind (first :: header) headers body bodyLength
    | cons second front =>
      by_cases line : crlf <+: first :: second :: front ++ (crlf ++ crlf ++ behind)
      · refine run_inl (decodeTrailer_line free apart here line) ▸ ?_
        exact decodeTrailer_behind front behind [] (header.reverse :: headers) body bodyLength
      · refine run_inl (decodeTrailer_octet free apart line) ▸ ?_
        exact decodeTrailer_behind (second :: front) behind
          (first :: header) headers body bodyLength
termination_by front.length

theorem encodeTrailersLoop_crlf (trailers : List (Bytes × Bytes)) (front : Bytes) :
    ∃ lines, encodeTrailersLoop trailers (front ++ crlf) = lines ++ (crlf ++ crlf ++ crlf) := by
  induction trailers generalizing front with
  | nil => exact ⟨front, by simp only [encodeTrailersLoop, append_assoc]⟩
  | cons trailer trailers ih =>
    rw [encodeTrailersLoop, ← append_assoc]
    exact ih _

/-- There are two empty lines behind trailers. -/
theorem encodeTrailers_ends (some : trailers ≠ []) :
    ∃ lines, encodeTrailers trailers = lines ++ (crlf ++ crlf ++ crlf) := by
  cases trailers with
  | nil => exact absurd rfl some
  | cons trailer trailers =>
    rw [encodeTrailers, encodeTrailersLoop, append_nil]
    exact encodeTrailersLoop_crlf trailers _

end Unlimited

/-- The lines behind the last chunk's size. -/
theorem decode_trailers {chunks : List Chunk} (nonempty : ∀ chunk ∈ chunks, chunk.bytes ≠ [])
    (rest : Bytes) : (decode (chunks.flatMap encode ++ zero :: (crlf ++ rest)) none none).final =
      (decoder.run (.decodeTrailer (crlf ++ rest) [] [] (chunks.flatMap Chunk.bytes)
        (integerToList (chunks.flatMap Chunk.bytes).length 10) none none)).final := by
  rw [decode, decodeSize_chunks nonempty (cons_ne_nil _ _),
    decodeSize_digit (short_unlimited rfl 0), decodeSize_last rfl]
  simp only [nil_append, Int.add_zero]

theorem eq_ok_of_final {outcome : Outcome} (same : outcome.final = some (.ok headers body)) :
    outcome = .ok headers body := by
  cases outcome <;> cases same
  rfl

theorem decode_encode {chunks : List Chunk} (nonempty : ∀ chunk ∈ chunks, chunk.bytes ≠ []) :
    (∃ headers, decode (chunks.flatMap encode ++ encodeLast trailers ++ following) none none =
      .ok headers (chunks.flatMap Chunk.bytes ++ following)) ↔ trailers = [] := by
  constructor
  · rintro ⟨headers, answered⟩
    by_contra some
    obtain ⟨lines, shape⟩ := encodeTrailers_ends some
    have bytes : chunks.flatMap encode ++ encodeLast trailers ++ following =
        chunks.flatMap encode ++ zero ::
          (crlf ++ (lines ++ (crlf ++ crlf ++ (crlf ++ following)))) := by
      simp only [encodeLast, if_neg some, shape, append_assoc, cons_append]
    obtain ⟨found, between, ended⟩ := decodeTrailer_behind (crlf ++ lines) (crlf ++ following) [] []
      (chunks.flatMap Chunk.bytes) (integerToList (chunks.flatMap Chunk.bytes).length 10)
    have final := decode_trailers nonempty (lines ++ (crlf ++ crlf ++ (crlf ++ following)))
    rw [← bytes, answered, ← append_assoc crlf lines, ended] at final
    -- the answer has an empty line too many
    have same := (Outcome.ok.inj (Option.some.inj final)).2
    have lengths := congrArg length (append_cancel_left same)
    simp [crlf] at lengths
    omega
  · rintro rfl
    have bytes : chunks.flatMap encode ++ encodeLast [] ++ following =
        chunks.flatMap encode ++ zero :: (crlf ++ (crlf ++ following)) := by
      simp only [encodeLast, if_true, append_assoc, cons_append]
    obtain ⟨found, ended⟩ := @decodeTrailer_end _ [] [] (chunks.flatMap Chunk.bytes)
      (integerToList (chunks.flatMap Chunk.bytes).length 10) none none (by simp) (prefix_refl _)
    have final := decode_trailers nonempty (crlf ++ following)
    rw [← append_assoc crlf crlf, run_inr (ended following)] at final
    rw [bytes]
    exact ⟨_, eq_ok_of_final final⟩

/-- Chunks are decoded as they were encoded if there are no trailers; and a body that comes in
pieces, cut where it does not matter, is decoded as the body at once. -/
theorem chunked_coding (chunks : List Chunk) (trailers : List (Bytes × Bytes)) (following : Bytes)
    (maxBodySize maxHeaderSize : Limit) (first : Bytes) (pieces : List Bytes) :
    ((∀ chunk ∈ chunks, chunk.bytes ≠ []) →
      ((∃ headers, decode (chunks.flatMap encode ++ encodeLast trailers ++ following) none none =
        .ok headers (chunks.flatMap Chunk.bytes ++ following)) ↔ trailers = [])) ∧
      (SafeCuts (.decodeSize first [] 0 ⟨maxBodySize, [], 0, maxHeaderSize⟩) pieces →
        (pieces.foldl Outcome.resume (decode first maxBodySize maxHeaderSize)).final =
          (decode (first ++ pieces.flatten) maxBodySize maxHeaderSize).final) := by
  constructor
  · intro nonempty
    exact decode_encode nonempty
  · intro safe
    exact feed_final (Nat.le_refl 0) safe

/-- A chunk of one byte, cut behind the byte. -/
theorem chunked_coding_cut :
    (∃ headers, decode ([Chunk.binary [97], .list [[98], []]].flatMap encode ++ encodeLast [] ++
      [120]) none none =
        .ok headers [97, 98, 120]) ∧
      SafeCuts (.decodeSize (text "1" ++ crlf ++ text "a") [] 0 ⟨some 10, [], 0, some 10⟩)
        [crlf ++ encodeLast []] ∧
      ([crlf ++ encodeLast []].foldl Outcome.resume
        (decode (text "1" ++ crlf ++ text "a") (some 10) (some 10))).final =
        (decode (text "1" ++ crlf ++ text "a" ++ [crlf ++ encodeLast []].flatten) (some 10)
          (some 10)).final := by
  have safe : SafeCuts (.decodeSize (text "1" ++ crlf ++ text "a") [] 0 ⟨some 10, [], 0, some 10⟩)
      [crlf ++ encodeLast []] := by
    have size : step (.decodeSize (text "1" ++ crlf ++ text "a") [] 0 ⟨some 10, [], 0, some 10⟩) =
        .inl (.decodeSize (crlf ++ text "a") (text "1") 1 ⟨some 10, [], 0, some 10⟩) := by
          decide +kernel
    have line : step (.decodeSize (crlf ++ text "a") (text "1") 1 ⟨some 10, [], 0, some 10⟩) =
        .inl (.decodeData 1 (text "a") ⟨some 10, [], 1, some 10⟩) := by decide +kernel
    have data : step (.decodeData 1 (text "a") ⟨some 10, [], 1, some 10⟩) =
        .mfa (.decodeData 1 (text "a") ⟨some 10, [], 1, some 10⟩) := by decide +kernel
    refine ⟨fun call reached => ?_, fun _ _ => trivial⟩
    rcases reached.of_call size with rfl | reached
    · trivial
    rcases reached.of_call line with rfl | reached
    · trivial
    cases reached.of_outcome data
    exact fun _ => ⟨by decide +kernel, fun same => absurd same (by decide +kernel),
      fun same => absurd same (by decide +kernel)⟩
  have coding :=
    chunked_coding [.binary [97], .list [[98], []]] [] [120] (some 10) (some 10)
      (text "1" ++ crlf ++ text "a")
    [crlf ++ encodeLast []]
  exact ⟨(coding.1 (by decide)).mpr rfl, safe, coding.2 safe⟩

/-- A trailer leaves an empty line behind the body; and a body cut behind the semicolon of the
last chunk has no answer. -/
theorem chunked_coding_fails :
    decode (encode (.binary (text "a")) ++ encodeLast [(text "h", text "v")]) none none =
        .ok [text "content-length:1", text "h:v", []] (text "a" ++ crlf) ∧
      (decode (encode (.binary (text "a")) ++ text "0;") none none).resume
        (text "x" ++ crlf ++ crlf) = .functionClause ∧
      decode (encode (.binary (text "a")) ++ text "0;" ++ (text "x" ++ crlf ++ crlf)) none none =
        .ok [text "content-length:1"] (text "a") := by
  refine ⟨?_, ?_, ?_⟩ <;> decide +kernel

end Otp.Inets
