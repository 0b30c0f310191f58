import Otp.Inet.PacketParser
import Mathlib.Data.List.GetD

/-! The answers of `packet_get_length` as more bytes arrive. -/

namespace Otp.Inet

open List
open Otp.Library.Framing

theorem byteAt_append (inside : i < ptr.length) : byteAt (ptr ++ more) i = byteAt ptr i := by
  rw [byteAt, byteAt, getD_append _ _ _ _ inside]

/-- What a header says does not change. -/
def Kept (header : List UInt8 → Header) : Prop :=
  ∀ ptr more, header ptr ≠ .more → header (ptr ++ more) = header ptr

/-- A header of fixed size. -/
theorem kept_of_size {field : List UInt8 → Header}
    (same : ∀ ptr more, size ≤ ptr.length → field (ptr ++ more) = field ptr) :
    Kept fun ptr => if ptr.length < size then .more else field ptr := by
  intro ptr more known
  rcases Nat.lt_or_ge ptr.length size with less | enough
  · exact absurd (if_pos less) known
  · simp only [length_append, if_neg (show ¬ ptr.length < size by omega),
      if_neg (show ¬ ptr.length + more.length < size by omega), same ptr more enough]

theorem pb1_kept : Kept pb1 :=
  kept_of_size fun _ _ _ => by simp (disch := omega) only [getInt8, byteAt_append]

theorem pb2_kept : Kept pb2 :=
  kept_of_size fun _ _ _ => by simp (disch := omega) only [getInt16, byteAt_append]

theorem pb4_kept : Kept pb4 :=
  kept_of_size fun _ _ _ => by simp (disch := omega) only [getInt32, byteAt_append]

theorem rm_kept : Kept rm :=
  kept_of_size fun _ _ _ => by simp (disch := omega) only [getInt32, byteAt_append]

theorem cdr_kept : Kept cdr :=
  kept_of_size fun _ _ _ => by
    simp (disch := omega) only [take_append_of_le_length, getLittleInt32, getInt32, byteAt_append]

theorem fcgi_kept : Kept fcgi :=
  kept_of_size fun _ _ _ => by simp (disch := omega) only [byteAt_append]

theorem tpkt_kept : Kept tpkt :=
  kept_of_size fun _ _ _ => by simp (disch := omega) only [getInt16, byteAt_append]

theorem sslTls_kept : Kept sslTls :=
  kept_of_size fun _ _ _ => by simp (disch := omega) only [getInt16, byteAt_append]

theorem asn1Length_append (known : asn1Length n rest ≠ .more) :
    asn1Length (n + more.length) (rest ++ more) = asn1Length n rest := by
  cases rest with
  | nil => exact absurd rfl known
  | cons tptr rest =>
    have place : n + more.length - (rest ++ more).length = n - rest.length := by
      rw [length_append]
      omega
    rw [asn1Length] at known
    rw [cons_append, asn1Length, asn1Length, place]
    split at known
    case isTrue long =>
      rw [if_pos long, if_pos long]
      split at known
      case isTrue => exact absurd rfl known
      case isFalse enough =>
        rw [if_neg (by rw [length_append]; omega), if_neg enough]
        generalize tptr.toNat &&& 0x7f = length at *
        rcases length with _ | _ | _ | _ | _ | length
        · rfl
        · simp (disch := omega) only [getInt8, byteAt_append]
        · simp (disch := omega) only [getInt16, byteAt_append]
        · simp (disch := omega) only [getInt24, byteAt_append]
        · simp (disch := omega) only [getInt32, byteAt_append]
        · rfl
    case isFalse short => rw [if_neg short, if_neg short]

theorem asn1_kept : Kept asn1 := by
  intro ptr more known
  cases ptr with
  | nil => exact absurd rfl known
  | cons first rest =>
    have size : (first :: rest ++ more).length = (first :: rest).length + more.length :=
      length_append
    rw [asn1] at known
    rw [cons_append, asn1, asn1]
    dsimp only at known ⊢
    rw [← cons_append, size]
    split at known
    case isTrue => exact absurd rfl known
    case isFalse enough =>
      rw [if_neg (by omega), if_neg enough]
      split at known
      case isTrue long =>
        rw [if_pos long, if_pos long]
        split at known
        case isTrue => exact absurd rfl known
        case isFalse two =>
          -- the tag ends inside what has been read
          have tail : (rest ++ more).dropWhile (fun byte => decide (byte.toNat &&& 0x80 = 0x80)) =
              rest.dropWhile (fun byte => decide (byte.toNat &&& 0x80 = 0x80)) ++ more := by
            rw [dropWhile_append, if_neg]
            intro empty
            rw [isEmpty_iff.mp empty] at two
            exact two (by decide)
          generalize rest.dropWhile (fun byte => decide (byte.toNat &&& 0x80 = 0x80)) = left at *
          cases left with
          | nil => exact absurd (by decide) two
          | cons last field =>
            rw [tail, if_neg (by rw [length_append]; omega), if_neg two]
            exact asn1Length_append known
      case isFalse short =>
        rw [if_neg short, if_neg short]
        exact asn1Length_append known

theorem header_append (kept : Kept header) (answered : (header ptr).length maxPlen ≠ 0) :
    (header (ptr ++ more)).length maxPlen = (header ptr).length maxPlen := by
  have known : header ptr ≠ .more := fun same => answered (same ▸ rfl)
  rw [kept ptr more known]

theorem memchr_append : memchr c (ptr ++ more) =
    (memchr c ptr).or ((memchr c more).map (· + ptr.length)) := by
  rw [memchr, findIdx?_append]
  rfl

theorem memchr_none : memchr c ptr = none ↔ c ∉ ptr := by
  rw [memchr, findIdx?_eq_none_iff]
  constructor
  · intro differ member
    simpa using differ c member
  · intro absent byte member
    simp only [beq_eq_false_iff_ne]
    exact fun same => absent (same ▸ member)

/-- A line is first cut at the line length, and refused when it gets longer than a packet may be. -/
def LineConflict (stream : List UInt8) (maxPlen truncLen : Nat) (delimiter : UInt8) : Prop :=
  truncLen ≠ 0 ∧ truncLen ≤ maxPlen ∧ maxPlen < stream.length ∧ delimiter ∉ stream.take maxPlen

theorem memchr_some (found : memchr c ptr = some place) :
    place < ptr.length ∧ c ∉ ptr.take place := by
  obtain ⟨inside, -, before⟩ := findIdx?_eq_some_iff_getElem.mp found
  refine ⟨inside, fun member => ?_⟩
  obtain ⟨i, below, same⟩ := mem_take_iff_getElem.mp member
  have differ := before i (by omega)
  simp [same] at differ

/-- The first place is not before the end of a part without `c`. -/
theorem memchr_after (absent : memchr c ptr = none) (found : memchr c (ptr ++ more) = some place) :
    ptr.length ≤ place := by
  rw [memchr_append, absent] at found
  obtain ⟨later, -, rfl⟩ := Option.map_eq_some_iff.mp found
  omega

theorem not_mem_take (part : whole <+: stream) (size : limit ≤ whole.length)
    (late : ∀ place, memchr c whole = some place → limit ≤ place) : c ∉ stream.take limit := by
  have same : stream.take limit = whole.take limit := by
    obtain ⟨rest, rfl⟩ := part
    exact take_append_of_le_length size
  rw [same]
  intro member
  cases found : memchr c whole with
  | none => exact memchr_none.mp found (mem_of_mem_take member)
  | some place =>
    refine (memchr_some found).2 ?_
    have short := late place found
    exact (take_subset_take_left whole short) member

theorem lineLf_append (calm : ¬ LineConflict stream maxPlen truncLen delimiter)
    (part : ptr ++ more <+: stream) (answered : lineLf ptr maxPlen truncLen delimiter ≠ 0) :
    lineLf (ptr ++ more) maxPlen truncLen delimiter = lineLf ptr maxPlen truncLen delimiter := by
  have size := part.length_le
  rw [length_append] at size
  unfold lineLf at answered ⊢
  cases here : memchr delimiter ptr with
  | some place => rw [memchr_append, here, Option.some_or]
  | none =>
    rw [here] at answered
    by_cases beyond : ptr.length > maxPlen ∧ maxPlen ≠ 0
    · rw [if_pos beyond]
      cases found : memchr delimiter (ptr ++ more) with
      | none => exact if_pos ⟨by rw [length_append]; omega, beyond.2⟩
      | some place =>
        have later := memchr_after here found
        exact if_pos ⟨by omega, beyond.2⟩
    by_cases cut : ptr.length ≥ truncLen ∧ truncLen ≠ 0
    · rw [if_neg beyond, if_pos cut]
      -- a packet that is too long with more bytes would have been cut before
      have below : maxPlen ≠ 0 → truncLen ≤ maxPlen := by omega
      cases found : memchr delimiter (ptr ++ more) with
      | none =>
        rw [if_neg, if_pos ⟨by rw [length_append]; omega, cut.2⟩]
        rintro ⟨long, limited⟩
        rw [length_append] at long
        refine calm ⟨cut.2, below limited, by omega, not_mem_take part ?_ (by simp [found])⟩
        rw [length_append]
        omega
      | some place =>
        have later := memchr_after here found
        have inside := (memchr_some found).1
        dsimp only
        rw [if_neg, if_pos ⟨by omega, cut.2⟩]
        rintro ⟨long, limited⟩
        rw [length_append] at inside
        refine calm ⟨cut.2, below limited, by omega, not_mem_take part ?_ ?_⟩
        · rw [length_append]
          omega
        · intro other same
          rw [found] at same
          cases same
          omega
    · rw [if_neg beyond, if_neg cut] at answered
      exact absurd rfl answered

/-- The line is cut on what fits the line length and refused on what does not fit a packet. -/
theorem lineLf_conflict (conflict : LineConflict stream maxPlen truncLen delimiter) :
    lineLf (stream.take truncLen) maxPlen truncLen delimiter = toInt truncLen ∧
      lineLf (stream.take (maxPlen + 1)) maxPlen truncLen delimiter = -1 := by
  obtain ⟨positive, below, longer, absent⟩ := conflict
  constructor
  · have missing : memchr delimiter (stream.take truncLen) = none :=
      memchr_none.mpr fun member => absent (take_subset_take_left stream below member)
    unfold lineLf
    rw [missing]
    rw [length_take, Nat.min_eq_left (by omega), if_neg (by omega),
      if_pos ⟨Nat.le_refl _, positive⟩]
  · unfold lineLf
    cases found : memchr delimiter (stream.take (maxPlen + 1)) with
    | none =>
      refine if_pos ⟨?_, by omega⟩
      rw [length_take]
      omega
    | some place =>
      refine if_pos ⟨?_, by omega⟩
      by_contra small
      -- the delimiter would be among the first bytes
      obtain ⟨_, same, -⟩ := findIdx?_eq_some_iff_getElem.mp found
      refine absent (mem_take_iff_getElem.mpr ⟨place, by omega, ?_⟩)
      simpa using same

/-- A limit of one byte, and an empty line. -/
def HttpConflict (stream : List UInt8) (maxPlen truncLen : Nat) : Prop :=
  httpLimit maxPlen truncLen = 1 ∧ [13, 10] <+: stream

theorem httpLoop_some (found : memchr 10 ptr1 = some place) : httpLoop maxPlen state seen ptr1 =
      if state = false then if maxPlen ≠ 0 ∧ seen + place + 1 > maxPlen then -1
        else toInt (seen + place + 1)
      else if seen + place + 1 < seen + ptr1.length then
        if sp ptr1 (place + 1) ∧ seen + place + 1 > 2 then
          httpLoop maxPlen state (seen + place + 1) (ptr1.drop (place + 1))
        else if maxPlen ≠ 0 ∧ seen + place + 1 > maxPlen then -1
        else toInt (seen + place + 1)
      else if maxPlen ≠ 0 ∧ seen + place + 1 > maxPlen then -1
      else 0 := by
  rw [httpLoop]
  split
  case h_1 absent =>
    rw [found] at absent
    cases absent
  case h_2 other same =>
    rw [found] at same
    cases same
    rfl

theorem httpLoop_none (absent : memchr 10 ptr1 = none) (maxPlen : Nat) (state : Bool) (seen : Nat) :
    httpLoop maxPlen state seen ptr1 = if maxPlen ≠ 0 ∧ seen + ptr1.length ≥ maxPlen then
      -1 else 0 := by
  rw [httpLoop]
  split
  case h_1 => rfl
  case h_2 found =>
    rw [absent] at found
    cases found

/-- A field that is over the limit, wherever it ends. -/
theorem httpLoop_over (limited : maxPlen ≠ 0) (size : maxPlen ≤ seen + ptr1.length)
    (late : ∀ place, memchr 10 ptr1 = some place → maxPlen < seen + place + 1) :
    httpLoop maxPlen state seen ptr1 = -1 := by
  cases found : memchr 10 ptr1 with
  | none => rw [httpLoop_none found, if_pos ⟨limited, size⟩]
  | some place =>
    have beyond := late place found
    rw [httpLoop_some found]
    split
    · exact if_pos ⟨limited, beyond⟩
    split
    · split
      · refine httpLoop_over limited ?_ ?_
        · omega
        · omega
      · exact if_pos ⟨limited, beyond⟩
    · exact if_pos ⟨limited, beyond⟩
termination_by ptr1.length
decreasing_by
  rw [length_drop]
  omega

theorem httpLoop_append (more : List UInt8) (answered : httpLoop maxPlen state seen ptr1 ≠ 0) :
    httpLoop maxPlen state seen (ptr1 ++ more) = httpLoop maxPlen state seen ptr1 := by
  cases here : memchr 10 ptr1 with
  | none =>
    rw [httpLoop_none here] at answered ⊢
    split at answered
    case isTrue full =>
      rw [if_pos full]
      refine httpLoop_over full.1 ?_ ?_
      · rw [length_append]
        omega
      · intro place found
        have later := memchr_after here found
        omega
    case isFalse => exact absurd rfl answered
  | some place =>
    have inside := (memchr_some here).1
    have whole : memchr 10 (ptr1 ++ more) = some place := by
      rw [memchr_append, here, Option.some_or]
    have rest : (ptr1 ++ more).drop (place + 1) = ptr1.drop (place + 1) ++ more :=
      drop_append_of_le_length inside
    rw [httpLoop_some here] at answered ⊢
    rw [httpLoop_some whole, length_append, rest]
    by_cases first : state = false
    · rw [if_pos first, if_pos first]
    rw [if_neg first] at answered ⊢
    rw [if_neg first]
    by_cases next : seen + place + 1 < seen + ptr1.length
    · have sameSp : sp (ptr1 ++ more) (place + 1) = sp ptr1 (place + 1) := by
        rw [sp, sp, byteAt_append (by omega)]
      rw [if_pos next] at answered ⊢
      rw [if_pos (by omega), sameSp]
      split at answered
      case isTrue folded =>
        rw [if_pos folded, if_pos folded]
        exact httpLoop_append more answered
      case isFalse ends => rw [if_neg ends, if_neg ends]
    · rw [if_neg next] at answered ⊢
      split at answered
      case isTrue beyond =>
        split
        · split
          · refine httpLoop_over beyond.1 ?_ ?_
            · omega
            · omega
          · rfl
        · rfl
      case isFalse => exact absurd rfl answered
termination_by ptr1.length
decreasing_by
  rw [length_drop]
  omega

/-- An empty line with more behind it. -/
theorem httpLoop_empty (found : memchr 10 ptr = some place) (small : place + 1 ≤ 2)
    (fits : ¬ (limit ≠ 0 ∧ place + 1 > limit)) (longer : place + 1 < ptr.length) (state : Bool) :
    httpLoop limit state 0 ptr = toInt (place + 1) := by
  have short : ¬ (sp ptr (place + 1) ∧ place + 1 > 2) := fun folded => by omega
  rw [httpLoop_some found, Nat.zero_add, Nat.zero_add, if_neg fits, if_pos longer,
    if_neg short, ite_self]

theorem http_append (calm : ¬ HttpConflict stream maxPlen truncLen) (part : ptr ++ more <+: stream)
    (answered : http ptr maxPlen truncLen state ≠ 0) :
    http (ptr ++ more) maxPlen truncLen state = http ptr maxPlen truncLen state := by
  cases more with
  | nil => rw [append_nil]
  | cons byte more =>
    unfold http at answered ⊢
    by_cases special : ptr = [10] ∨ ptr = [13, 10]
    · rcases special with rfl | rfl
      · have found : memchr 10 ([10] ++ byte :: more) = some 0 := rfl
        exact httpLoop_empty found (by decide) (fun beyond => by omega) (by simp) state
      · have fits : ¬ (httpLimit maxPlen truncLen ≠ 0 ∧ 1 + 1 > httpLimit maxPlen truncLen) := by
          intro beyond
          exact calm ⟨by omega, (prefix_append _ _).trans part⟩
        exact httpLoop_empty rfl (by decide) fits (by simp) state
    · rw [if_neg special] at answered ⊢
      by_cases whole : ptr ++ byte :: more = [10] ∨ ptr ++ byte :: more = [13, 10]
      · exfalso
        -- what came before the end of an empty line is nothing, or its first byte
        have before : ptr = [] ∨ ptr = [13] ∧ byte :: more = [10] := by
          rcases whole with whole | whole
          · cases ptr with
            | nil => exact .inl rfl
            | cons first rest => simp at whole
          · match ptr, whole with
            | [], _ => exact .inl rfl
            | [first], whole => exact .inr (by simpa using whole)
            | first :: second :: rest, whole => simp at whole
        rcases before with rfl | ⟨rfl, rest⟩
        · rw [httpLoop_none rfl] at answered
          split at answered
          case isTrue full =>
            simp only [length_nil] at full
            omega
          case isFalse => exact answered rfl
        · rw [httpLoop_none rfl] at answered
          split at answered
          case isTrue full =>
            simp only [length_cons, length_nil] at full
            rw [rest] at part
            exact calm ⟨by omega, part⟩
          case isFalse => exact answered rfl
      · rw [if_neg whole]
        exact httpLoop_append (byte :: more) answered

theorem http_conflict (conflict : HttpConflict stream maxPlen truncLen) :
    http (stream.take 1) maxPlen truncLen state = -1 ∧
    http (stream.take 2) maxPlen truncLen state = 2 := by
  obtain ⟨limit, rest, rfl⟩ := conflict
  constructor
  · rw [http, httpLoop_none rfl, limit]
    rfl
  · rfl

/-- An answer on the first bytes that more bytes take back. -/
def Conflict (htype : PacketParseType) (stream : List UInt8) (maxPlen truncLen : Nat)
    (delimiter : UInt8) : Prop :=
  match htype with
  | .lineLf => LineConflict stream maxPlen truncLen delimiter
  | .http | .httph | .httpBin | .httphBin => HttpConflict stream maxPlen truncLen
  | _ => False

/-- The answers for a packet type, by the state and what has arrived. -/
def answer (htype : PacketParseType) (maxPlen truncLen : Nat) (delimiter : UInt8) (state : Bool)
    (ptr : List UInt8) :
    Int :=
  (packetGetLength htype ptr maxPlen truncLen delimiter state).1

theorem answer_stable (framed : htype ≠ .raw)
    (calm : ¬ Conflict htype stream maxPlen truncLen delimiter) :
    Stable (answer htype maxPlen truncLen delimiter) state stream := by
  refine stable_of_append fun buffer more part answered => ?_
  cases htype with
  | raw => exact absurd rfl framed
  | pb1 => exact header_append pb1_kept answered
  | pb2 => exact header_append pb2_kept answered
  | pb4 => exact header_append pb4_kept answered
  | asn1 => exact header_append asn1_kept answered
  | rm => exact header_append rm_kept answered
  | cdr => exact header_append cdr_kept answered
  | fcgi => exact header_append fcgi_kept answered
  | tpkt => exact header_append tpkt_kept answered
  | sslTls => exact header_append sslTls_kept answered
  | lineLf => exact lineLf_append calm part answered
  | http | httph | httpBin | httphBin => exact http_append calm part answered

theorem toInt_small (small : n < 2 ^ 31) : toInt n = n := by
  rw [toInt, Nat.mod_eq_of_lt (by omega), if_pos small]

/-- Some bytes are a packet, and others an error. -/
theorem conflict_answers (small : stream.length < 2 ^ 31)
    (conflict : Conflict htype stream maxPlen truncLen delimiter) (state : Bool) :
    ∃ n m, n ≤ stream.length ∧ m ≤ stream.length ∧
      answer htype maxPlen truncLen delimiter state (stream.take n) = -1 ∧ 0 < m ∧
      answer htype maxPlen truncLen delimiter state (stream.take m) = m := by
  have http (state : Bool) (conflict : HttpConflict stream maxPlen truncLen) : ∃ n m,
    n ≤ stream.length ∧
      m ≤ stream.length ∧ http (stream.take n) maxPlen truncLen state = -1 ∧ 0 < m ∧
      http (stream.take m) maxPlen truncLen state = m :=
    have length : 2 ≤ stream.length := conflict.2.length_le
    ⟨1, 2, by omega, length, (http_conflict conflict).1, by decide, (http_conflict conflict).2⟩
  cases htype with
  | lineLf =>
    obtain ⟨cut, failed⟩ := lineLf_conflict conflict
    obtain ⟨positive, below, longer, -⟩ := conflict
    rw [toInt_small (by omega)] at cut
    exact ⟨maxPlen + 1, truncLen, longer, by omega, failed, by omega, cut⟩
  | http | httpBin => exact http state conflict
  | httph | httphBin => exact http true conflict
  | raw | pb1 | pb2 | pb4 | asn1 | rm | cdr | fcgi | tpkt | sslTls => exact conflict.elim

theorem conflict_not_stable (small : stream.length < 2 ^ 31)
    (conflict : Conflict htype stream maxPlen truncLen delimiter) :
    ¬ Stable (answer htype maxPlen truncLen delimiter) state stream := by
  intro stable
  obtain ⟨n, m, inside, within, failed, positive, cut⟩ := conflict_answers small conflict state
  rcases Nat.le_total n m with before | before
  · have same := stable n m before within (by rw [failed]; decide)
    omega
  · have same := stable m n before inside (by rw [cut]; omega)
    omega

/-- The header of a packet; lines and HTTP have none. -/
def header (htype : PacketParseType) (ptr : List UInt8) : Header :=
  match htype with
  | .pb1 => pb1 ptr
  | .pb2 => pb2 ptr
  | .pb4 => pb4 ptr
  | .asn1 => asn1 ptr
  | .rm => rm ptr
  | .cdr => cdr ptr
  | .fcgi => fcgi ptr
  | .tpkt => tpkt ptr
  | .sslTls => sslTls ptr
  | .raw | .lineLf | .http | .httph | .httpBin | .httphBin => .remain 0 0

/-- A header is among the bytes that were read. -/
def Header.Within (n : Nat) : Header → Prop
  | .remain hlen _ => hlen ≤ n
  | _ => True

theorem asn1Length_within (fits : ptr.length ≤ n) : (asn1Length n ptr).Within n := by
  cases ptr with
  | nil => trivial
  | cons tptr rest =>
    rw [length_cons] at fits
    rw [asn1Length]
    split
    · split
      · trivial
      · split <;> simp only [Header.Within] <;> omega
    · exact Nat.sub_le n rest.length

theorem asn1_within : (asn1 ptr).Within ptr.length := by
  cases ptr with
  | nil => trivial
  | cons first rest =>
    rw [asn1]
    split
    · trivial
    split
    · dsimp only
      split
      · trivial
      · refine asn1Length_within ?_
        have shorter :=
          (dropWhile_suffix (l := rest) fun byte => byte.toNat &&& 0x80 = 0x80).length_le
        rw [length_tail, length_cons]
        omega
    · exact asn1Length_within (by simp)

theorem header_within (htype : PacketParseType) (ptr : List UInt8) :
    (header htype ptr).Within ptr.length := by
  cases htype with
  | asn1 => exact asn1_within
  | pb1 | pb2 | pb4 | rm | cdr | fcgi | tpkt | sslTls =>
    simp only [header, pb1, pb2, pb4, rm, cdr, fcgi, tpkt, sslTls]
    repeat' split
    all_goals simp only [Header.Within]
    all_goals omega
  | raw | lineLf | http | httph | httpBin | httphBin => exact Nat.zero_le _

theorem Header.length_ge (small : hlen < 2 ^ 31)
    (positive : 0 < (Header.remain hlen plen).length maxPlen) : (hlen : Int) ≤
      (Header.remain hlen plen).length maxPlen := by
  rw [Header.length] at positive ⊢
  split at positive
  · omega
  · rename_i fits
    rw [if_neg fits]
    rw [toInt_small small] at fits
    omega

theorem packetGetLength_ge (small : ptr.length < 2 ^ 31)
    (positive : 0 < answer htype maxPlen truncLen delimiter state ptr)
    (read : header htype ptr = .remain hlen plen) : (hlen : Int) ≤
      answer htype maxPlen truncLen delimiter state ptr := by
  have within := header_within htype ptr
  rw [read] at within
  have bound : hlen < 2 ^ 31 := Nat.lt_of_le_of_lt within small
  cases htype with
  | pb1 | pb2 | pb4 | asn1 | rm | cdr | fcgi | tpkt | sslTls =>
    rw [answer, packetGetLength] at positive ⊢
    dsimp only [header] at positive read ⊢
    rw [read] at positive ⊢
    exact Header.length_ge bound positive
  | raw | lineLf | http | httph | httpBin | httphBin =>
    cases read
    exact positive.le

theorem answer_empty (framed : htype ≠ .raw) :
    answer htype maxPlen truncLen delimiter state [] = 0 := by
  have line : lineLf [] maxPlen truncLen delimiter = 0 := by
    rw [lineLf]
    dsimp only [memchr, findIdx?_nil, length_nil]
    rw [if_neg (by omega), if_neg (by omega)]
  have loop (state : Bool) : http [] maxPlen truncLen state = 0 := by
    rw [http, if_neg (by simp), httpLoop_none rfl]
    exact if_neg (by simp only [length_nil]; omega)
  cases htype with
  | raw => exact absurd rfl framed
  | pb1 | pb2 | pb4 | asn1 | rm | cdr | fcgi | tpkt | sslTls => rfl
  | lineLf => exact line
  | http | httpBin => exact loop state
  | httph | httphBin => exact loop true

/-- An answer on the first bytes is the answer on more of them exactly if the packet type's limits
do not conflict. From every start of a packet on, the packets do not depend on the pieces the
stream comes in exactly if they conflict at none of them. No packet is shorter than its header. -/
theorem packetGetLength_framing (htype : PacketParseType) (framed : htype ≠ .raw)
    (maxPlen truncLen : Nat) (delimiter : UInt8) (state : Bool) (stream : List UInt8)
    (small : stream.length < 2 ^ 31) : (Stable
      (answer htype maxPlen truncLen delimiter) state stream ↔
        ¬ Conflict htype stream maxPlen truncLen delimiter) ∧
      (∀ advance : Bool → List UInt8 → Bool,
        (∀ s, Starts (answer htype maxPlen truncLen delimiter) advance (state, stream) s →
          ∀ pieces : List (List UInt8), pieces.flatten = s.2 →
            feed (answer htype maxPlen truncLen delimiter) advance (.waiting s.1 []) pieces =
              drain (answer htype maxPlen truncLen delimiter) advance s.1 s.2) ↔
        ∀ s, Starts (answer htype maxPlen truncLen delimiter) advance (state, stream) s →
          ¬ Conflict htype s.2 maxPlen truncLen delimiter) ∧
      ∀ ptr hlen plen, ptr <+: stream → header htype ptr = .remain hlen plen →
        0 < answer htype maxPlen truncLen delimiter state ptr →
        (hlen : Int) ≤ answer htype maxPlen truncLen delimiter state ptr := by
  refine ⟨⟨fun stable conflict => conflict_not_stable small conflict stable,
    fun calm => answer_stable framed calm⟩, ?_, ?_⟩
  · intro advance
    constructor
    · intro same s starts conflict
      have short := (Starts.length_le starts).trans_lt small
      obtain ⟨n, m, -, within, failed, positive, cut⟩ := conflict_answers short conflict s.1
      have first : answer htype maxPlen truncLen delimiter s.1 (s.2.take n) < 0 := by omega
      have second : answer htype maxPlen truncLen delimiter s.1 (s.2.take m) ≤
        (s.2.take m).length := by
        rw [cut, length_take, Nat.min_eq_left within]
      exact feed_differs first (by omega) second (same s starts)
    · rintro calm ⟨state', rest⟩ starts pieces rfl
      have drained : drain (answer htype maxPlen truncLen delimiter) advance state' [] =
        ([], .waiting state' []) := by
        rw [drain, answer_empty framed, if_neg (Int.lt_irrefl 0),
          if_neg (fun positive => Int.lt_irrefl 0 positive.1)]
      exact feed_drained pieces state' [] drained fun s run =>
        answer_stable framed (calm s (starts.trans run))
  · intro ptr hlen plen part read positive
    exact packetGetLength_ge (Nat.lt_of_le_of_lt part.length_le small) positive read

/-- Lines of at most four bytes in packets of at most eight. -/
theorem packetGetLength_framing_lines :
    Stable (answer .lineLf 8 4 10) false [97, 97, 97, 97, 97, 10] ∧
      ¬ Conflict .lineLf [97, 97, 97, 97, 97, 10] 8 4 10 := by
  have calm : ¬ Conflict .lineLf [97, 97, 97, 97, 97, 10] 8 4 10 := by
    intro conflict
    exact absurd conflict.2.2.1 (by decide)
  exact ⟨(packetGetLength_framing .lineLf (by decide) 8 4 10 false _ (by decide)).1.mpr calm, calm⟩

/-- A line of nine bytes is cut after four bytes if these come first, and an error if all come at
once. -/
theorem line_depends_on_pieces :
    answer .lineLf 8 4 10 false (replicate 4 97) = 4 ∧
    answer .lineLf 8 4 10 false (replicate 9 97) = -1 ∧
      ¬ Stable (answer .lineLf 8 4 10) false (replicate 9 97) := by
  refine ⟨by decide, by decide, fun stable => ?_⟩
  exact absurd (stable 4 9 (by decide) (by decide) (by decide)) (by decide)

end Otp.Inet
