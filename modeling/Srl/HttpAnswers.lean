import Srl.HttpBlocks

namespace Srl

open Bytes KeyedList Dictionary

namespace HttpRequest

open HttpHeaders hiding startHeader Stop

variable {a : Answering} {r q : HttpRequest} {code n : UInt32} {reason content_type : Bytes}

/-- What the fixed parts of an answer are made of has no line ends, and the buffers of `Format` are long enough. -/
structure Answering.Sound (a : Answering) : Prop where
  server : Inline a.handler.server_version
  short : a.handler.server_version.length ≤ 128
  date : ∃ d, Inline d ∧ a.date = bytes "Date: " ++ d ++ bytes "\r\n"

/-- The first line of an answer. -/
structure Status (s : Bytes) : Prop where
  inline : Inline s
  begins : ∃ t, s = bytes "HTTP/" ++ t

theorem status_line (maj min code : UInt32) (hreason : Inline reason) (hshort : reason.length ≤ 100) :
    ∃ status, Status status ∧ Format (bytes "HTTP/%u.%u %u %s\r\n") (bytes "HTTP/" ++ valUInt32 maj 10 ++ [46] ++
      valUInt32 min 10 ++ [32] ++ valUInt32 code 10 ++ [32] ++ reason ++ bytes "\r\n") =
        some (status ++ bytes "\r\n") := by
  have hmaj := length_valUInt32 maj
  have hmin := length_valUInt32 min
  have hcode := length_valUInt32 code
  refine ⟨_, ⟨?_, ?_⟩, if_pos ?_⟩
  · have hversion := inline_append (inline_append (inline_append (by decide : Inline (bytes "HTTP/"))
      (inline_valUInt32 maj)) (by decide : Inline [46])) (inline_valUInt32 min)
    exact inline_append (inline_append (inline_append (inline_append hversion (by decide : Inline [32]))
      (inline_valUInt32 code)) (by decide : Inline [32])) hreason
  · exact ⟨valUInt32 maj 10 ++ [46] ++ valUInt32 min 10 ++ [32] ++ valUInt32 code 10 ++ [32] ++ reason, by simp⟩
  · simp only [List.length_append, List.length_singleton]
    have h1 : (bytes "HTTP/").length = 5 := rfl
    have h2 : (bytes "\r\n").length = 2 := rfl
    have h3 : (bytes "HTTP/%u.%u %u %s\r\n").length = 18 := rfl
    omega

theorem startHeader_eq (hr : r.major ≠ 0 ∧ r.minor ≠ 9) (ha : a.Sound) (hreason : Inline reason)
    (hshort : reason.length ≤ 100) : ∃ status, Status status ∧ startHeader a r code reason =
      some (status ++ bytes "\r\n" ++ (if a.keep_alive then [] else bytes "Connection: close\r\n") ++
        (bytes "Server: " ++ a.handler.server_version ++ bytes "\r\n") ++ a.date) := by
  have hserver : Format (bytes "Server: %s\r\n") (bytes "Server: " ++ a.handler.server_version ++ bytes "\r\n") =
      some (bytes "Server: " ++ a.handler.server_version ++ bytes "\r\n") := by
    apply if_pos
    simp only [List.length_append]
    have h1 : (bytes "Server: ").length = 8 := rfl
    have h2 : (bytes "\r\n").length = 2 := rfl
    have h3 : (bytes "Server: %s\r\n").length = 12 := rfl
    have h4 := ha.short
    omega
  unfold startHeader
  rw [if_pos hr, cstr_inline hreason, cstr_inline ha.server]
  dsimp only
  generalize (if r.major < a.handler.major ∨ (r.major = a.handler.major ∧ r.minor < a.handler.minor) then r.major
    else a.handler.major) = maj
  generalize (if r.major < a.handler.major ∨ (r.major = a.handler.major ∧ r.minor < a.handler.minor) then r.minor
    else a.handler.minor) = min
  obtain ⟨status, hstatus, hline⟩ := status_line maj min code hreason hshort
  refine ⟨status, hstatus, ?_⟩
  rw [hline, hserver]
  rfl

theorem sendHeader_eq {key value : Bytes} (hr : r.major ≠ 0 ∧ r.minor ≠ 9) (hkey : Inline key) (hvalue : Inline value)
    (hshort : key.length + value.length ≤ 132) :
    sendHeader r key value = some (key ++ bytes ": " ++ value ++ bytes "\r\n") := by
  unfold sendHeader
  rw [if_pos hr, cstr_inline hkey, cstr_inline hvalue]
  apply if_pos
  simp only [List.length_append]
  have h1 : (bytes ": ").length = 2 := rfl
  have h2 : (bytes "\r\n").length = 2 := rfl
  have h3 : (bytes "%s: %s\r\n").length = 8 := rfl
  omega

theorem trim_inset {d : Bytes} (hfirst : ∀ c, d.head? = some c → Str.blank c = false)
    (hlast : ∀ c, d.getLast? = some c → Str.blank c = false) : trim (32 :: d) = d := by
  have hdrop : (32 :: d).dropWhile Str.blank = d := by
    rw [List.dropWhile_cons_of_pos (by decide)]
    cases d with
    | nil => rfl
    | cons c d =>
      have hc := hfirst c rfl
      exact List.dropWhile_cons_of_neg (by rw [hc]; exact Bool.false_ne_true)
  have hend := @trimEnd_last d [] hlast fun c hc => absurd hc List.not_mem_nil
  rw [List.append_nil] at hend
  rw [trim, hdrop, hend]

theorem trim_digits (num : UInt32) : trim (32 :: valUInt32 num 10) = valUInt32 num 10 := by
  have hblank : ∀ c ∈ valUInt32 num 10, Str.blank c = false := by
    intro c hc
    exact blank_of_lt (UInt8.lt_of_lt_of_le (by decide) ((valUInt32_decimal num).2.1 c hc).1)
  exact trim_inset (fun c hc => hblank c (List.mem_of_head? hc)) fun c hc => hblank c (List.mem_of_getLast? hc)

/-- The headers of an answer. -/
theorem answer_headers (ha : a.Sound) (htype : Inline content_type) : ∃ hs : List Header, hs.length < 200 ∧
    lookup Hasher.hash (hs.foldl put []) (Hasher.hash (bytes "content-length")) = some (valUInt32 n 10) ∧
    (if a.keep_alive then [] else bytes "Connection: close\r\n") ++
      (bytes "Server: " ++ a.handler.server_version ++ bytes "\r\n") ++ a.date ++
      (bytes "Content-Type" ++ bytes ": " ++ content_type ++ bytes "\r\n") ++
      (bytes "Content-Length" ++ bytes ": " ++ valUInt32 n 10 ++ bytes "\r\n") ++ bytes "\r\n" = block hs := by
  obtain ⟨d, hd, hdate⟩ := ha.date
  let fixed : List Header := [.line (bytes "Server") a.handler.server_version (by decide) ha.server,
    .line (bytes "Date") d (by decide) hd, .line (bytes "Content-Type") content_type (by decide) htype,
    .line (bytes "Content-Length") (valUInt32 n 10) (by decide) (inline_valUInt32 n)]
  let connection : List Header := if a.keep_alive then []
    else [.line (bytes "Connection") (bytes "close") (by decide) (by decide)]
  have hkeys : (connection ++ fixed).map Header.key = (connection.map Header.key) ++
      [bytes "server", bytes "date", bytes "content-type", bytes "content-length"] := by
    rw [List.map_append]
    congr 1
  have hpairs : ((connection ++ fixed).map Header.key).Pairwise fun k l => (Hasher.hash k : Int) ≠ Hasher.hash l := by
    rw [hkeys]
    cases hk : a.keep_alive with
    | true =>
      simp only [connection, hk, ↓reduceIte]
      decide
    | false =>
      simp only [connection, hk, Bool.false_eq_true, ↓reduceIte]
      decide
  have hline : ∀ h ∈ connection ++ fixed, h.continuations = [] := by
    intro h hh
    obtain hh | hh := List.mem_append.mp hh
    · cases hk : a.keep_alive with
      | true => simp [connection, hk] at hh
      | false =>
        simp only [connection, hk, Bool.false_eq_true, ↓reduceIte, List.mem_singleton] at hh
        rw [hh]
        rfl
    · simp only [fixed, List.mem_cons, List.not_mem_nil, or_false] at hh
      obtain rfl | rfl | rfl | rfl := hh <;> rfl
  obtain ⟨hdistinct, hfold⟩ := foldl_lines hline hpairs
  refine ⟨connection ++ fixed, ?_, ?_, ?_⟩
  · rw [List.length_append]
    have hfixed : fixed.length = 4 := rfl
    have hconnection : connection.length ≤ 1 := by
      simp only [connection]
      split <;> simp
    omega
  · rw [hfold]
    have hmem : (bytes "content-length", valUInt32 n 10) ∈ (connection ++ fixed).map Header.entry := by
      rw [List.map_append]
      apply List.mem_append_right
      have hentry : (Header.line (bytes "Content-Length") (valUInt32 n 10) (by decide) (inline_valUInt32 n)).entry =
          (bytes "content-length", valUInt32 n 10) := by
        show (_, trim (32 :: valUInt32 n 10)) = _
        rw [trim_digits]
        rfl
      simp only [fixed, List.map_cons, hentry, List.mem_cons, true_or, or_true]
    exact lookup_of_mem hdistinct hmem
  · rw [hdate]
    cases hk : a.keep_alive with
    | true =>
      simp only [connection, fixed, hk, ↓reduceIte, List.nil_append, block_line, block_nil, List.append_assoc]
      rfl
    | false =>
      simp only [connection, fixed, hk, Bool.false_eq_true, ↓reduceIte, List.cons_append, List.nil_append, block_line,
        block_nil, List.append_assoc]
      rfl

/-- The calls of a handler that make a whole answer, and the body of that answer. -/
inductive Answers : List Sending → Bool → Bytes → Prop
  | response {content content_type : Bytes} (hinline : Inline content_type) (hshort : content_type.length ≤ 120) :
    Answers [.sendResponse content content_type] true content
  | error {code : UInt32} {reason : Bytes} (hinline : Inline reason) (hshort : reason.length ≤ 100) :
    Answers [.sendError code reason] true (extended_reason reason)
  | unhandled : Answers [] false (extended_reason (bytes "METHOD NOT SUPPORTED"))

/-- An answer as it stands in a stream. -/
structure Wire (text body rest : Bytes) : Prop where
  parts : ∃ status hs, Status status ∧ hs.length < 200 ∧
    lookup Hasher.hash (hs.foldl put []) (Hasher.hash (bytes "content-length")) =
      some (valUInt32 (UInt32.ofNat body.length) 10) ∧
    text = status ++ bytes "\r\n" ++ (block hs ++ (body ++ rest))

variable {body text stream : Bytes} {calls : List Sending} {is_handled : Bool}

theorem headed (hr : r.major ≠ 0 ∧ r.minor ≠ 9) (ha : a.Sound) (hreason : Inline reason) (hshort : reason.length ≤ 100)
    (htype : Inline content_type) (hlen : content_type.length ≤ 120) (body rest : Bytes) :
    ∃ start type length, startHeader a r code reason = some start ∧
      sendHeader r (bytes "Content-Type") content_type = some type ∧
      sendHeader r (bytes "Content-Length") (valUInt32 (UInt32.ofNat body.length) 10) = some length ∧
      Wire (start ++ type ++ length ++ endHeader r ++ body ++ rest) body rest := by
  obtain ⟨status, hstatus, hstart⟩ := @startHeader_eq a r code reason hr ha hreason hshort
  obtain ⟨hs, hfew, hlookup, hblock⟩ := @answer_headers a (UInt32.ofNat body.length) content_type ha htype
  have hten := length_valUInt32 (UInt32.ofNat body.length)
  have htypeLen : (bytes "Content-Type").length = 12 := rfl
  have hlengthLen : (bytes "Content-Length").length = 14 := rfl
  refine ⟨_, _, _, hstart, sendHeader_eq hr (by decide) htype (by omega),
    sendHeader_eq hr (by decide) (inline_valUInt32 _) (by omega), status, hs, hstatus, hfew, hlookup, ?_⟩
  rw [← hblock, endHeader, if_pos hr]
  simp only [List.append_assoc]

theorem sendError_wire (hr : r.major ≠ 0 ∧ r.minor ≠ 9) (ha : a.Sound) (hreason : Inline reason)
    (hshort : reason.length ≤ 100) :
    ∃ text, sendError a r code reason = some text ∧ Wire text (extended_reason reason) [] := by
  obtain ⟨start, type, length, hstart, htype, hlength, hwire⟩ := @headed a r code reason (bytes "text/html") hr ha
    hreason hshort (by decide) (by decide) (extended_reason reason) []
  refine ⟨start ++ type ++ length ++ endHeader r ++ extended_reason reason, ?_, ?_⟩
  · unfold sendError
    rw [hstart, htype, hlength]
    rfl
  · rwa [List.append_nil] at hwire

theorem sendResponse_wire {content : Bytes} (hr : r.major ≠ 0 ∧ r.minor ≠ 9) (ha : a.Sound)
    (htype : Inline content_type) (hshort : content_type.length ≤ 120) :
    ∃ text, sendResponse a r content content_type = some text ∧ Wire text content (bytes "\r\n\r\n") := by
  obtain ⟨start, type, length, hstart, htype, hlength, hwire⟩ := @headed a r 200 (bytes "OK") content_type hr ha
    (by decide) (by decide) htype hshort content (bytes "\r\n\r\n")
  refine ⟨start ++ type ++ length ++ endHeader r ++ content ++ bytes "\r\n\r\n", ?_, hwire⟩
  unfold sendResponse
  rw [hstart, htype, hlength]
  rfl

theorem answer_wire (hr : r.major ≠ 0 ∧ r.minor ≠ 9) (ha : a.Sound) (hanswers : Answers calls is_handled body)
    {left : Bytes} (hhandle : handle a.handler r stream = (calls, is_handled, left)) :
    ∃ text rest, answer a r stream = some (text, left, a.keep_alive) ∧ Wire text body rest := by
  unfold answer
  rw [hhandle]
  cases hanswers with
  | response htype hshort =>
    obtain ⟨text, hsend, hwire⟩ := @sendResponse_wire a r _ body hr ha htype hshort
    refine ⟨text, _, ?_, hwire⟩
    simp only [sentAll, sent, hsend, Option.bind_eq_bind, Option.bind_some, List.append_nil, ↓reduceIte]
  | @error code _ hreason hshort =>
    obtain ⟨text, hsend, hwire⟩ := @sendError_wire a r code _ hr ha hreason hshort
    refine ⟨text, _, ?_, hwire⟩
    simp only [sentAll, sent, hsend, Option.bind_eq_bind, Option.bind_some, List.append_nil, ↓reduceIte]
  | unhandled =>
    obtain ⟨text, hsend, hwire⟩ := @sendError_wire a r 400 (bytes "METHOD NOT SUPPORTED") hr ha (by decide) (by decide)
    refine ⟨text, _, ?_, hwire⟩
    simp only [sentAll, hsend, Option.bind_eq_bind, Option.bind_some, List.nil_append, Bool.false_eq_true, ↓reduceIte]

variable {m : List (Bytes × Bytes)} {hs : List Header} {method uri rest : Bytes}

theorem numeral_one : Numeral (bytes "1") where
  nonempty := by decide
  digits := by decide
  small := by decide

/-- A request of version 1.1 without content comes to the handler with the parts of its first line. -/
theorem prepare_request (hd : Represents r.headers m) (hmethod : Plain method) (huri : Plain uri)
    (hfew : hs.length < 200) (hhost : has Hasher.hash (hs.foldl put []) (Hasher.hash (bytes "host")) = true)
    (hnone : has Hasher.hash (hs.foldl put []) (Hasher.hash (bytes "content-length")) = false) :
    ∃ q, prepare a r (requestLine method uri (bytes "1") (bytes "1") ++ (block hs ++ rest)) = some ([], .ok (q, rest)) ∧
      q.method = method ∧ q.uri = uri ∧ q.major = 1 ∧ q.minor = 1 := by
  have hversion := plain_version numeral_one numeral_one
  obtain ⟨hsection0, hsection1, hsection2⟩ := section_joined hmethod huri hversion
  have hread : readUntil (requestLine method uri (bytes "1") (bytes "1") ++ (block hs ++ rest)) =
      (joined method uri (version (bytes "1") (bytes "1")) ++ bytes "\r\n", block hs ++ rest) :=
    readUntil_line (joined_inline hmethod huri hversion)
  obtain ⟨headers, hclear, hheaders⟩ := clear_spec hd
  obtain ⟨major, minor, hmajor, hminor, hparse⟩ :=
    @parseVersion_version { r with
      headers
      content := joined method uri (version (bytes "1") (bytes "1"))
      method
      uri
      request_version := version (bytes "1") (bytes "1") } (bytes "1") (bytes "1") rfl numeral_one numeral_one
  obtain rfl : major = 1 := UInt32.toNat_inj.mp (hmajor.trans (by decide))
  obtain rfl : minor = 1 := UInt32.toNat_inj.mp (hminor.trans (by decide))
  rw [if_neg (by decide)] at hparse
  obtain ⟨s, hblock, hs'⟩ := parseStream_block hheaders hfew rest
  have hkey := hasKey_spec hs' (bytes "content-length")
  rw [hnone] at hkey
  have hhostKey := hasKey_spec hs' (bytes "host")
  rw [hhost] at hhostKey
  have hlength : ∀ q : HttpRequest, q.headers = s.fields →
      q.getContentLength = some (.ok { q with content_length := 0 }) := by
    intro q hq
    unfold getContentLength
    rw [hq, hkey]
    rfl
  have hcheck : ∀ q : HttpRequest, q.headers = s.fields → q.major = 1 → q.minor = 1 → q.checkHost = some (.ok ()) := by
    intro q hq hq1 hq2
    unfold checkHost
    rw [hq1, hq2, if_pos (by decide), hq, hhostKey]
    rfl
  refine ⟨{ r with
    headers := s.fields
    content := []
    content_length := 0
    method
    uri
    request_version := version (bytes "1") (bytes "1")
    major := 1
    minor := 1 }, ?_, rfl, rfl, rfl, rfl⟩
  unfold prepare
  rw [hclear, hread]
  dsimp only [Option.bind_eq_bind, Option.bind_some]
  rw [if_neg (by simp [joined]), joined_trimEnd hversion, hsection0, hsection1, hsection2, answerVersion_ok hparse]
  dsimp only [Option.bind_some]
  rw [if_pos (by decide)]
  unfold parseHeadersStream
  dsimp only
  rw [hblock]
  dsimp only [Option.bind_eq_bind, Option.bind_some]
  rw [hlength _ rfl]
  dsimp only [Option.bind_some]
  rw [hcheck _ rfl rfl rfl]
  dsimp only [Option.bind_some]
  rw [hlength _ rfl]
  rfl

end HttpRequest

end Srl
