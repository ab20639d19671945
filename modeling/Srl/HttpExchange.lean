import Srl.HttpAnswers
import Srl.TcpReadAll
import Srl.Uri

namespace Srl

open Bytes KeyedList Dictionary

namespace TcpSocket

/-- A `readAll` that returns hands out the next bytes of the stream, one less than it was asked for. -/
theorem readAll_next {len : UInt32} {s s' : TcpSocket} {ts : List Turn} {n : Nat} {out : Bytes} (hs : s.Ordered)
    (hlen : 2 ≤ len.toNat) (h : s.readAll len ts = (.returned n out, s')) :
    ∃ arrived, s'.received = s.received ++ arrived ∧ out = (s.unread ++ arrived).take (len.toNat - 1) ∧
      s'.unread = (s.unread ++ arrived).drop (len.toNat - 1) := by
  obtain ⟨m, b, hm, hb, rfl⟩ := readAll_returned h
  have hadv := hm.advanced (by simp) hs
  have hbuffer := hadv.ordered.sound.buffer
  obtain ⟨arrived, hreceived, hunread⟩ := hadv.arrived
  have hpred : (len - 1).toNat = len.toNat - 1 :=
    UInt32.toNat_sub_of_le len 1 (UInt32.le_iff_toNat_le.mpr (by show 1 ≤ len.toNat; omega))
  rw [hpred, ByteBuffer.readString, if_neg (by omega)] at hb
  obtain ⟨hout, hin, rfl, rfl⟩ := ByteBuffer.readChars_ok hbuffer hb
  have hsplit : m.unread = Cells.window m.buffer.buffer m.buffer.pos (m.buffer.pos + (len.toNat - 1)) ++
      ({ m with buffer := { m.buffer with pos := m.buffer.pos + (len.toNat - 1) } } : TcpSocket).unread := by
    have := hin (by omega)
    exact (Cells.window_append (by omega) (by omega)).symm
  refine ⟨arrived, hreceived, ?_, ?_⟩
  · rw [← hunread, hsplit, List.take_left' hout]
  · rw [← hunread, hsplit, List.drop_left' hout]

end TcpSocket

namespace HttpClient

open HttpRequest (Stop)

def SRL_MAJOR : Int32 := 2

def SRL_MINOR : Int32 := 10

def SRL_REVISION : Int32 := 4

/-- The port that `get` connects to. -/
def port (uri : URI) : Except Stop UInt32 :=
  if uri.port = 0 then
    if uri.scheme = [] ∨ uri.scheme.same (bytes "http") then .ok 80
    else if uri.scheme.same (bytes "https") then .ok 443
    else .error (.IOException (bytes "invalid HTTP Scheme"))
  else .ok uri.port

/-- What `get` sends. -/
def request (uri : URI) (port : UInt32) : Option Bytes := do
  let get ← Format (bytes "GET %s HTTP/1.1\r\n") (bytes "GET " ++ cstr uri.path ++ bytes " HTTP/1.1\r\n")
  let host ← Format (bytes "host: %s:%d\r\n") (bytes "host: " ++ cstr uri.host ++ [58] ++ val port.toInt32 10 ++
    bytes "\r\n")
  let user_agent ← Format (bytes "user-agent: SRL-HttpClient/%d.%d.%d\r\n") (bytes "user-agent: SRL-HttpClient/" ++
    val SRL_MAJOR 10 ++ [46] ++ val SRL_MINOR 10 ++ [46] ++ val SRL_REVISION 10 ++ bytes "\r\n")
  some (get ++ host ++ bytes "accept: */*\r\n" ++ bytes "connection: close\r\n" ++ user_agent ++ bytes "\r\n")

/-- What `readAll` comes to, where that does not depend on how the bytes arrive. -/
def readAll (stream : Bytes) (len : UInt32) : Option (Except Stop Bytes) :=
  if len ≤ 1 ∨ 512000 < len then none
  else if stream.length < len.toNat then
    some (.error (.IOException (bytes "timed out waiting for readAll to complete")))
  else some (.ok (stream.take (len.toNat - 1)))

/-- What `get` makes of what comes back. -/
def receive (headers : Dictionary Bytes Bytes) (stream output : Bytes) : Option (Except Stop Bytes) :=
  let line := (HttpHeaders.readUntil stream).1.trim
  if line = [] then some (.error (.IOException (bytes "failed to receive response from request")))
  else if line.beginsWith (bytes "HTTP") then do
    match ← HttpHeaders.parseStream headers (HttpHeaders.readUntil stream).2 with
    | .error e => some (.error (.headers e))
    | .ok (s, stream) =>
      if ← s.fields.hasKey (bytes "content-length") then
        match ← s.fields.get (bytes "content-length") with
        | .error e => some (.error (.dictionary e))
        | .ok value =>
          let content_length := int value 10
          if 0 < content_length then readAll stream content_length.toUInt32 else some (.ok output)
      else some (.ok output)
  else some (.error (.IOException (bytes "invalid response from request")))

/-- `HttpClient::get`; `server` is what comes back for what was sent. -/
def get (headers : Dictionary Bytes Bytes) (uri : URI) (server : Bytes → Option Bytes) (output : Bytes) :
    Option (Except Stop Bytes) :=
  match port uri with
  | .error e => some (.error e)
  | .ok port => do
    let request ← request uri port
    let stream ← server request
    receive headers stream output

open HttpHeaders HttpRequest

variable {headers : Dictionary Bytes Bytes} {m : List (Bytes × Bytes)} {text body rest output : Bytes} {n : UInt32}

theorem int_valUInt32 (hsmall : n.toNat < 2 ^ 31) : (int (valUInt32 n 10) 10).toUInt32 = n ∧
    (0 < int (valUInt32 n 10) 10 ↔ 0 < n.toNat) := by
  obtain ⟨hne, hdigits, hvalue⟩ := valUInt32_decimal n
  have hnat := toNat_int hne hdigits (by rw [hvalue]; exact hsmall)
  rw [hvalue] at hnat
  refine ⟨UInt32.toNat_inj.mp hnat, ?_⟩
  rw [Int32.lt_iff_toInt_lt, Int32.toInt_zero, Bytes.toInt_eq, hnat]
  split <;> omega

theorem readAll_body (htwo : 2 ≤ body.length) (hfits : body.length ≤ 512000) (rest : Bytes) :
    readAll (body ++ rest) (UInt32.ofNat body.length) = some (.ok body.dropLast) := by
  have hnat : (UInt32.ofNat body.length).toNat = body.length := UInt32.toNat_ofNat_of_lt' (by show _ < 2 ^ 32; omega)
  have hmany : ¬(UInt32.ofNat body.length ≤ 1 ∨ 512000 < UInt32.ofNat body.length) := by
    rw [UInt32.le_iff_toNat_le, UInt32.lt_iff_toNat_lt, hnat]
    simp only [UInt32.reduceToNat]
    omega
  unfold readAll
  rw [if_neg hmany, hnat, if_neg (by rw [List.length_append]; omega), List.take_append_of_le_length (by omega),
    List.dropLast_eq_take]

theorem trim_status (t : Bytes) : trim (bytes "HTTP/" ++ t ++ bytes "\r\n") ≠ [] ∧
    beginsWith (trim (bytes "HTTP/" ++ t ++ bytes "\r\n")) (bytes "HTTP") = true := by
  have htrim : trim (bytes "HTTP/" ++ t ++ bytes "\r\n") = bytes "HTTP" ++ trimEnd (47 :: (t ++ bytes "\r\n")) := by
    have hdrop : (bytes "HTTP/" ++ t ++ bytes "\r\n").dropWhile Str.blank =
        [72, 84, 84] ++ 80 :: (47 :: (t ++ bytes "\r\n")) := by
      rw [List.append_assoc]
      rfl
    rw [trim, hdrop, trimEnd_append (by decide)]
    rfl
  rw [htrim]
  refine ⟨by simp [show bytes "HTTP" = [72, 84, 84, 80] from rfl], ?_⟩
  rw [beginsWith, cstr_append_of_ne (by decide), cstr_of_ne (by decide)]
  exact List.isPrefixOf_iff_prefix.mpr (List.prefix_append _ _)

/-- The client gets the body of an answer but for its last byte. -/
theorem receive_wire (hd : Represents headers m) (h : Wire text body rest) (hone : body.length ≠ 1)
    (hfits : body.length ≤ 512000) (output : Bytes) :
    receive headers text output = some (.ok (if body = [] then output else body.dropLast)) := by
  obtain ⟨status, hs, hstatus, hfew, hlookup, rfl⟩ := h.parts
  obtain ⟨t, rfl⟩ := hstatus.begins
  have hread := @readUntil_line _ (block hs ++ (body ++ rest)) hstatus.inline
  obtain ⟨hfilled, hbegins⟩ := trim_status t
  obtain ⟨s, hparse, hs'⟩ := parseStream_block hd hfew (body ++ rest)
  have hnat : (UInt32.ofNat body.length).toNat = body.length := UInt32.toNat_ofNat_of_lt' (by show _ < 2 ^ 32; omega)
  obtain ⟨hint, hpos⟩ := @int_valUInt32 (UInt32.ofNat body.length) (by omega)
  have hkey := hasKey_spec hs' (bytes "content-length")
  rw [← lookup_isSome, hlookup, Option.isSome_some] at hkey
  have hget := get_spec hs' (bytes "content-length")
  rw [hlookup] at hget
  unfold receive
  rw [hread]
  dsimp only
  rw [if_neg hfilled, if_pos hbegins, hparse]
  dsimp only [Option.bind_eq_bind, Option.bind_some]
  rw [hkey]
  dsimp only [Option.bind_some]
  rw [if_pos rfl, hget]
  dsimp only [Dictionary.answer, Option.bind_some]
  rw [hint]
  by_cases hnil : body = []
  · rw [if_pos hnil, if_neg]
    rw [hpos, hnat, hnil]
    exact Nat.lt_irrefl 0
  · have htwo : 2 ≤ body.length := by
      have := List.length_pos_of_ne_nil hnil
      omega
    rw [if_neg hnil, if_pos (hpos.mpr (by omega)), readAll_body htwo hfits]

variable {uri : URI} {port : UInt32}

theorem length_val_le (num : Int32) : (val num 10).length ≤ 11 := by
  have hmag := toNat_magnitude num
  have hlow := num.le_toInt
  have hhigh := num.toInt_lt
  have hle := @length_numeral_le 10 10 (by decide) 33 num.toInt.natAbs [] (by omega)
  rw [List.length_nil] at hle
  unfold val
  rw [if_neg (by decide)]
  dsimp only
  rw [valLoop_eq, hmag]
  split
  · rw [List.length_cons]
    exact Nat.succ_le_succ hle
  · exact Nat.le_succ_of_le hle

theorem inline_val (num : Int32) : Inline (val num 10) := by
  intro c hc
  obtain rfl | ⟨hlow, -⟩ := mem_val hc
  · decide
  · exact inline_digit hlow

/-- The request line and the host header can be made of the parts of the address. -/
structure Sendable (uri : URI) : Prop where
  path : Plain uri.path
  path_short : uri.path.length ≤ 128
  host : Inline uri.host
  host_short : uri.host.length ≤ 120

/-- The headers of a request. -/
theorem request_eq (hu : Sendable uri) (port : UInt32) : ∃ hs : List Header, hs.length < 200 ∧
      has Hasher.hash (hs.foldl put []) (Hasher.hash (bytes "host")) = true ∧
      has Hasher.hash (hs.foldl put []) (Hasher.hash (bytes "content-length")) = false ∧
      request uri port = some (requestLine (bytes "GET") uri.path (bytes "1") (bytes "1") ++ block hs) := by
  have hport := length_val_le port.toInt32
  have hvalue : Inline (uri.host ++ [58] ++ val port.toInt32 10) :=
    inline_append (inline_append hu.host (by decide)) (inline_val _)
  let hs : List Header := [.line (bytes "host") (uri.host ++ [58] ++ val port.toInt32 10) (by decide) hvalue,
    .line (bytes "accept") (bytes "*/*") (by decide) (by decide),
    .line (bytes "connection") (bytes "close") (by decide) (by decide),
    .line (bytes "user-agent") (bytes "SRL-HttpClient/2.10.4") (by decide) (by decide)]
  have hkeys : hs.map Header.key = [bytes "host", bytes "accept", bytes "connection", bytes "user-agent"] := rfl
  have hline : ∀ h ∈ hs, h.continuations = [] := by
    intro h hh
    simp only [hs, List.mem_cons, List.not_mem_nil, or_false] at hh
    obtain rfl | rfl | rfl | rfl := hh <;> rfl
  obtain ⟨-, hfold⟩ := foldl_lines hline (by rw [hkeys]; decide)
  have hhas : ∀ k : Int,
      has Hasher.hash (hs.map Header.entry) k = (hs.map Header.key).any fun l => Hasher.hash l = k := by
    intro k
    rw [has, List.any_map, List.any_map]
    rfl
  refine ⟨hs, (by decide : 4 < 200), ?_, ?_, ?_⟩
  · rw [hfold, hhas, hkeys]
    decide
  · rw [hfold, hhas, hkeys]
    decide
  · have hget : Format (bytes "GET %s HTTP/1.1\r\n") (bytes "GET " ++ uri.path ++ bytes " HTTP/1.1\r\n") =
        some (bytes "GET " ++ uri.path ++ bytes " HTTP/1.1\r\n") := by
      apply if_pos
      simp only [List.length_append]
      have h0 := hu.path_short
      have h1 : (bytes "GET ").length = 4 := rfl
      have h2 : (bytes " HTTP/1.1\r\n").length = 11 := rfl
      have h3 : (bytes "GET %s HTTP/1.1\r\n").length = 17 := rfl
      omega
    have hhostline : Format (bytes "host: %s:%d\r\n") (bytes "host: " ++ uri.host ++ [58] ++ val port.toInt32 10 ++
        bytes "\r\n") = some (bytes "host: " ++ uri.host ++ [58] ++ val port.toInt32 10 ++ bytes "\r\n") := by
      apply if_pos
      simp only [List.length_append, List.length_singleton]
      have h0 := hu.host_short
      have h1 : (bytes "host: ").length = 6 := rfl
      have h2 : (bytes "\r\n").length = 2 := rfl
      have h3 : (bytes "host: %s:%d\r\n").length = 13 := rfl
      omega
    have hagent : Format (bytes "user-agent: SRL-HttpClient/%d.%d.%d\r\n") (bytes "user-agent: SRL-HttpClient/" ++
        val SRL_MAJOR 10 ++ [46] ++ val SRL_MINOR 10 ++ [46] ++ val SRL_REVISION 10 ++ bytes "\r\n") =
        some (bytes "user-agent: SRL-HttpClient/2.10.4\r\n") := by decide
    unfold request
    rw [cstr_inline hu.path.inline, cstr_inline hu.host, hget, hhostline, hagent]
    simp only [hs, block_line, block_nil, requestLine, version, Option.bind_eq_bind, Option.bind_some,
      List.append_assoc, List.cons_append]
    rfl

variable {a : Answering} {r : HttpRequest} {uri : URI} {headers : Dictionary Bytes Bytes}
  {m m' : List (Bytes × Bytes)} {body : Bytes} {port : UInt32}

/-- The server answers a request once and closes the connection. -/
theorem run_request (hd : Represents r.headers m) (ha : a.Sound) (hclose : a.keep_alive = false) (hu : Sendable uri)
    (hget : ∀ q left, q.method = bytes "GET" → q.uri = uri.path → q.major = 1 → q.minor = 1 →
      ∃ calls is_handled left', a.handler.http_get q left = (calls, is_handled, left') ∧ Answers calls is_handled body)
    (port : UInt32) (rounds : Nat) :
    ∃ text answered rest, request uri port = some text ∧ run a (rounds + 2) r text true = some answered ∧
      Wire answered body rest := by
  obtain ⟨hs, hfew, hhas, hnone, hrequest⟩ := request_eq hu port
  obtain ⟨q, hprepare, hmethod, huri, hmajor, hminor⟩ :=
    @prepare_request a r m hs (bytes "GET") uri.path [] hd (by decide) hu.path hfew hhas hnone
  obtain ⟨calls, is_handled, left, hcall, hanswers⟩ := hget q [] hmethod huri hmajor hminor
  have hhandle : handle a.handler q [] = (calls, is_handled, left) := by
    unfold handle
    rw [hmethod, if_neg (by decide), if_pos (by decide), hcall]
  obtain ⟨answered, rest, hanswer, hwire⟩ := answer_wire (by rw [hmajor, hminor]; decide) ha hanswers hhandle
  refine ⟨_, answered, rest, hrequest, ?_, hwire⟩
  rw [List.append_nil] at hprepare
  unfold run
  rw [hprepare]
  dsimp only [Option.bind_eq_bind, Option.bind_some]
  rw [hanswer, hclose]
  dsimp only [Option.bind_some]
  unfold run
  simp only [Option.bind_some, List.nil_append, List.append_nil]

/-- A page for every path, from a server that speaks 1.0. -/
def page : Answering where
  handler := {
    major := 1
    minor := 0
    server_version := bytes "SRL-HTTPD/2.10.4"
    http_get := fun _ left => ([.sendResponse (bytes "<h1>SRL</h1>\n") (bytes "text/html")], true, left) }
  keep_alive := false
  date := bytes "Date: Mon, 10 Apr 2006 18:45:20 GMT\r\n"

def home : URI := ⟨Dictionary.empty, [], bytes "http", [], bytes "localhost", bytes "/srl", [], [], 0⟩

end HttpClient

end Srl
