import Srl.HttpRequest
import Srl.StrFormat

namespace Srl

open Bytes KeyedList Dictionary

/-- `String::Format`: the printed text, if the first buffer of `vformat` is long enough for it. -/
def Bytes.Format (fmt printed : Bytes) : Option Bytes :=
  if printed.length ≤ fmt.length + 128 then some printed else none

/-- That is the text which `vformat` leaves in an empty string. -/
theorem Bytes.Format_becomes {fmt printed text : Bytes} (h : Format fmt printed = some text) (hne : fmt ≠ [])
    (hfew : fmt.length + 144 < 2 ^ 32) (mem : Nat → Nat → UInt8) (rounds : Nat) :
    Str.Becomes (Str.vformatList mem (rounds + 1) fmt printed) Str.empty text := by
  obtain ⟨hle, rfl⟩ : printed.length ≤ fmt.length + 128 ∧ printed = text := by
    unfold Format at h
    split at h
    next hle => exact ⟨hle, Option.some.inj h⟩
    next => cases h
  have hempty := Str.empty_stores
  have hmod : (fmt.length % 2 ^ 32 + 128) % 2 ^ 32 = fmt.length + 128 := by omega
  obtain ⟨s₁, hloop, hsize, hmin, hfront⟩ := @Str.formatLoop_roomy _ _ mem rounds _ hempty.sane.toAllocated
    hempty.min_lt hle (by omega) (Or.inl (by omega))
  obtain ⟨s₂, hresize, hholds⟩ := Str.resize_cut (mem (rounds + 1)) hsize hmin (by omega) hfront
  have hlength : Str.formatted mem (rounds + 1) fmt printed Str.empty = (.ok printed.length, s₁) := by
    rw [Str.formatted, if_neg hne, hmod]
    exact hloop
  exact hempty.becomes (Str.keeps_vformatList _ _ _ _) ⟨s₂, (Session.bind_ok hlength).trans hresize, hholds⟩

namespace HttpHeaders

/-- `parse` with what it leaves on the socket. -/
def parseStreamLoop : Nat → Parsing → Bytes → Option (Except Stop (Parsing × Bytes))
  | 0, _, _ => some (.error .endless)
  | fuel + 1, s, stream =>
    let line := (readUntil stream).1
    if line = [] ∨ line.same (bytes "\r\n") then some (.ok (s, (readUntil stream).2))
    else
      match parseLine s line with
      | none => none
      | some (.error e) => some (.error e)
      | some (.ok s) => parseStreamLoop fuel s (readUntil stream).2

def parseStream (fields : Dictionary Bytes Bytes) (stream : Bytes) : Option (Except Stop (Parsing × Bytes)) := do
  let fields ← fields.clear
  parseStreamLoop (stream.length + 1) ⟨fields, [], []⟩ stream

/-- The stream behind its first empty line. -/
def behind : Nat → Bytes → Bytes
  | 0, stream => stream
  | fuel + 1, stream =>
    if (readUntil stream).1 = [] ∨ (readUntil stream).1.same (bytes "\r\n") then (readUntil stream).2
    else behind fuel (readUntil stream).2

/-- What a parser of headers leaves does not depend on what it makes of them. -/
theorem parseStreamLoop_eq (fuel : Nat) (s : Parsing) (stream : Bytes) :
    parseStreamLoop fuel s stream = (parseLoop fuel s stream).map (·.map fun s => (s, behind fuel stream)) := by
  induction fuel generalizing s stream with
  | zero => rfl
  | succ fuel ih =>
    unfold parseStreamLoop parseLoop behind
    dsimp only
    split
    · rfl
    · cases parseLine s (readUntil stream).1 with
      | none => rfl
      | some e =>
        cases e with
        | error e => rfl
        | ok s => exact ih s _

theorem parseStream_eq (fields : Dictionary Bytes Bytes) (stream : Bytes) :
    parseStream fields stream =
      (parse fields stream).map (·.map fun s => (s, behind (stream.length + 1) stream)) := by
  unfold parseStream parse
  cases fields.clear with
  | none => rfl
  | some fields => exact parseStreamLoop_eq _ _ _

end HttpHeaders

/-- What a handler sends. -/
inductive Sending
  | startHeader (code : UInt32) (reason : Bytes)
  | sendHeader (key value : Bytes)
  | endHeader
  | sendResponse (content content_type : Bytes)
  | sendError (code : UInt32) (reason : Bytes)
  | send (data : Bytes)

/-- What a callback sends, whether the request is handled, and what is left on the socket. -/
abbrev Handled := List Sending × Bool × Bytes

/-- A handler, whose callbacks are given the request and what else is on the socket. -/
structure HttpRequestHandler where
  major : UInt32 := 0
  minor : UInt32 := 9
  server_version : Bytes
  http_head : HttpRequest → Bytes → Handled := fun _ stream => ([], false, stream)
  http_get : HttpRequest → Bytes → Handled := fun _ stream => ([], false, stream)
  http_post : HttpRequest → Bytes → Handled := fun _ stream => ([], false, stream)
  http_put : HttpRequest → Bytes → Handled := fun _ stream => ([], false, stream)
  http_delete : HttpRequest → Bytes → Handled := fun _ stream => ([], false, stream)
  http_trace : HttpRequest → Bytes → Handled := fun _ stream => ([], false, stream)
  http_options : HttpRequest → Bytes → Handled := fun _ stream => ([], false, stream)
  http_unknown : HttpRequest → Bytes → Handled := fun _ stream => ([], false, stream)

namespace HttpRequest

/-- What an answer depends on besides the request; `date` is the line that `formatString` makes of the time. -/
structure Answering where
  handler : HttpRequestHandler
  keep_alive : Bool
  date : Bytes

def startHeader (a : Answering) (r : HttpRequest) (code : UInt32) (reason : Bytes) : Option Bytes :=
  if r.major ≠ 0 ∧ r.minor ≠ 9 then do
    let older := r.major < a.handler.major ∨ (r.major = a.handler.major ∧ r.minor < a.handler.minor)
    let r_major := if older then r.major else a.handler.major
    let r_minor := if older then r.minor else a.handler.minor
    let status ← Format (bytes "HTTP/%u.%u %u %s\r\n") (bytes "HTTP/" ++ valUInt32 r_major 10 ++ [46] ++
      valUInt32 r_minor 10 ++ [32] ++ valUInt32 code 10 ++ [32] ++ cstr reason ++ bytes "\r\n")
    let connection := if a.keep_alive then [] else bytes "Connection: close\r\n"
    let server ← Format (bytes "Server: %s\r\n") (bytes "Server: " ++ cstr a.handler.server_version ++ bytes "\r\n")
    some (status ++ connection ++ server ++ a.date)
  else some []

def sendHeader (r : HttpRequest) (key value : Bytes) : Option Bytes :=
  if r.major ≠ 0 ∧ r.minor ≠ 9 then
    Format (bytes "%s: %s\r\n") (cstr key ++ bytes ": " ++ cstr value ++ bytes "\r\n")
  else some []

def endHeader (r : HttpRequest) : Bytes := if r.major ≠ 0 ∧ r.minor ≠ 9 then bytes "\r\n" else []

def sendResponse (a : Answering) (r : HttpRequest) (content content_type : Bytes) : Option Bytes := do
  let start ← startHeader a r 200 (bytes "OK")
  let type ← sendHeader r (bytes "Content-Type") content_type
  let length ← sendHeader r (bytes "Content-Length") (valUInt32 (UInt32.ofNat content.length) 10)
  some (start ++ type ++ length ++ endHeader r ++ content ++ bytes "\r\n\r\n")

def extended_reason (reason : Bytes) : Bytes := bytes "<h1>" ++ reason ++ bytes "</h1>\n"

def sendError (a : Answering) (r : HttpRequest) (code : UInt32) (reason : Bytes) : Option Bytes := do
  let start ← startHeader a r code reason
  let type ← sendHeader r (bytes "Content-Type") (bytes "text/html")
  let length ← sendHeader r (bytes "Content-Length") (valUInt32 (UInt32.ofNat (extended_reason reason).length) 10)
  some (start ++ type ++ length ++ endHeader r ++ extended_reason reason)

def sent (a : Answering) (r : HttpRequest) : Sending → Option Bytes
  | .startHeader code reason => startHeader a r code reason
  | .sendHeader key value => sendHeader r key value
  | .endHeader => some (endHeader r)
  | .sendResponse content content_type => sendResponse a r content content_type
  | .sendError code reason => sendError a r code reason
  | .send data => some data

def sentAll (a : Answering) (r : HttpRequest) : List Sending → Option Bytes
  | [] => some []
  | s :: ss => do
    let first ← sent a r s
    let rest ← sentAll a r ss
    some (first ++ rest)

/-- The answer to a request that cannot be read, and the exception. -/
def badRequest {α : Type} (a : Answering) (r : HttpRequest) (message : Bytes) : Option (Bytes × Except Stop α) := do
  let sent ← sendError a r 400 message
  some (sent, .error (.IOException message))

/-- `_parseVersion`, with what it sends. -/
def answerVersion (a : Answering) (r : HttpRequest) : Option (Bytes × Except Stop HttpRequest) :=
  if r.request_version ≠ [] then
    if r.request_version.beginsWith (bytes "HTTP/") then do
      let major ← r.request_version.betweenChars 47 46
      let minor ← r.request_version.betweenChars 46 13
      let r := { r with major := (int major 10).toUInt32, minor := (int minor 10).toUInt32 }
      if r.major = 0 ∧ r.minor = 0 then badRequest a r (bytes "Bad Request Version: " ++ cstr r.request_version)
      else some ([], .ok { r with request_version := r.request_version.trimEnd })
    else badRequest a r (bytes "Bad Request Version: " ++ cstr r.request_version)
  else if r.method.same (bytes "GET") then
    some ([], .ok { r with request_version := bytes "HTTP/0.9", major := 0, minor := 9 })
  else some ([], .ok r)

/-- `_parseHeaders`, with what it leaves on the socket. -/
def parseHeadersStream (r : HttpRequest) (stream : Bytes) : Option (Except Stop (HttpRequest × Bytes)) := do
  match ← HttpHeaders.parseStream r.headers stream with
  | .error e => some (.error (.headers e))
  | .ok (s, stream) =>
    match ← getContentLength { r with headers := s.fields } with
    | .error e => some (.error e)
    | .ok r => some (.ok ({ r with content := [] }, stream))

/-- `_parseRequest` up to the call of a handler, with what it sends and what it leaves on the socket. -/
def prepare (a : Answering) (r : HttpRequest) (stream : Bytes) :
    Option (Bytes × Except Stop (HttpRequest × Bytes)) := do
  let headers ← r.headers.clear
  let content := (HttpHeaders.readUntil stream).1
  if content = [] then some ([], .error (.IOException (bytes "timed out waiting for headeers\n")))
  else do
    let content := content.trimEnd
    let r := { r with
      headers
      content
      method := content.«section» 32 0
      uri := content.«section» 32 1
      request_version := content.«section» 32 2 }
    match ← answerVersion a r with
    | (sent, .error e) => some (sent, .error e)
    | (_, .ok r) =>
      let stream := (HttpHeaders.readUntil stream).2
      let withHeaders := if 0 < r.major then r.parseHeadersStream stream else some (.ok (r, stream))
      match ← withHeaders with
      | .error e => some ([], .error e)
      | .ok (r, stream) =>
        match ← r.checkHost with
        | .error _ => badRequest a r (bytes "Bad Request: No Host Header")
        | .ok () =>
          match ← r.getContentLength with
          | .error e => some ([], .error e)
          | .ok r => some ([], .ok (r, stream))

/-- The call of a handler. -/
def handle (h : HttpRequestHandler) (r : HttpRequest) (stream : Bytes) : Handled :=
  if r.method.same (bytes "HEAD") then h.http_head r stream
  else if r.method.same (bytes "GET") then h.http_get r stream
  else if r.method.same (bytes "POST") then h.http_post r stream
  else if r.method.same (bytes "PUT") then h.http_put r stream
  else if r.method.same (bytes "DELETE") then h.http_delete r stream
  else if r.method.same (bytes "TRACE") then h.http_trace r stream
  else if r.method.same (bytes "OPTIONS") then h.http_options r stream
  else h.http_unknown r stream

/-- The rest of `_parseRequest`: what is sent, what is left on the socket, and whether it is still connected. -/
def answer (a : Answering) (r : HttpRequest) (stream : Bytes) : Option (Bytes × Bytes × Bool) := do
  let (calls, is_handled, stream) := handle a.handler r stream
  let answered ← sentAll a r calls
  let unhandled ← (if is_handled then some [] else sendError a r 400 (bytes "METHOD NOT SUPPORTED"))
  some (answered ++ unhandled, stream, a.keep_alive)

/-- `run` in the given number of rounds: what is sent until the connection is closed. -/
def run (a : Answering) : Nat → HttpRequest → Bytes → Bool → Option Bytes
  | 0, _, _, _ => none
  | _ + 1, _, _, false => some []
  | rounds + 1, r, stream, true => do
    match ← prepare a r stream with
    | (sent, .error _) => some sent
    | (sent, .ok (r, stream)) =>
      let (answered, stream, connected) ← answer a r stream
      let more ← run a rounds r stream connected
      some (sent ++ answered ++ more)

variable {a : Answering} {r q : HttpRequest} {stream : Bytes} {message : Bytes}

theorem badRequest_snd {α : Type} {x : Bytes × Except Stop α} (h : badRequest a r message = some x) :
    x.2 = .error (.IOException message) := by
  obtain ⟨sent, -, h⟩ := Option.bind_eq_some_iff.mp h
  cases h
  rfl

theorem answerVersion_snd {x : Bytes × Except Stop HttpRequest} (h : answerVersion a r = some x) :
    r.parseVersion = some x.2 := by
  unfold answerVersion at h
  unfold parseVersion
  split at h
  next hne =>
    rw [if_pos hne]
    split at h
    next hbegins =>
      rw [if_pos hbegins]
      obtain ⟨major, hmajor, h⟩ := Option.bind_eq_some_iff.mp h
      obtain ⟨minor, hminor, h⟩ := Option.bind_eq_some_iff.mp h
      rw [hmajor, hminor]
      dsimp only [Option.bind_eq_bind, Option.bind_some] at h ⊢
      split at h
      next hzero => rw [if_pos hzero, badRequest_snd h]
      next hzero =>
        rw [if_neg hzero]
        cases h
        rfl
    next hbegins => rw [if_neg hbegins, badRequest_snd h]
  next hne =>
    rw [if_neg hne]
    split at h
    next hget =>
      rw [if_pos hget]
      cases h
      rfl
    next hget =>
      rw [if_neg hget]
      cases h
      rfl

theorem answerVersion_ok (h : r.parseVersion = some (.ok q)) : answerVersion a r = some ([], .ok q) := by
  unfold parseVersion at h
  unfold answerVersion
  split at h
  next hne =>
    rw [if_pos hne]
    split at h
    next hbegins =>
      rw [if_pos hbegins]
      obtain ⟨major, hmajor, h⟩ := Option.bind_eq_some_iff.mp h
      obtain ⟨minor, hminor, h⟩ := Option.bind_eq_some_iff.mp h
      rw [hmajor, hminor]
      dsimp only [Option.bind_eq_bind, Option.bind_some] at h ⊢
      split at h
      next hzero => cases h
      next hzero =>
        rw [if_neg hzero]
        cases h
        rfl
    next hbegins => cases h
  next hne =>
    rw [if_neg hne]
    split at h
    next hget =>
      rw [if_pos hget]
      cases h
      rfl
    next hget =>
      rw [if_neg hget]
      cases h
      rfl

theorem parseHeadersStream_eq (r : HttpRequest) (stream : Bytes) :
    parseHeadersStream r stream =
      (r.parseHeaders stream).map (·.map fun q => (q, HttpHeaders.behind (stream.length + 1) stream)) := by
  unfold parseHeadersStream parseHeaders
  rw [HttpHeaders.parseStream_eq]
  cases HttpHeaders.parse r.headers stream with
  | none => rfl
  | some e =>
    cases e with
    | error e => rfl
    | ok s =>
      dsimp only [Option.map_some, Except.map, Option.bind_eq_bind, Option.bind_some]
      cases getContentLength { r with headers := s.fields } with
      | none => rfl
      | some e => cases e <;> rfl

theorem checkHost_error {e : Stop} (h : r.checkHost = some (.error e)) :
    e = .IOException (bytes "Bad Request: No Host Header") := by
  unfold checkHost at h
  split at h
  next =>
    obtain ⟨b, -, h⟩ := Option.bind_eq_some_iff.mp h
    cases b <;> cases h
    rfl
  next => cases h

/-- What comes of a request besides what is sent. -/
theorem prepare_snd {x : Bytes × Except Stop (HttpRequest × Bytes)} (h : prepare a r stream = some x) :
    r.parseRequest stream = some (x.2.map Prod.fst) := by
  obtain ⟨headers, hclear, h⟩ := Option.bind_eq_some_iff.mp h
  unfold parseRequest parseRequestLine
  rw [hclear]
  dsimp only [Option.bind_eq_bind, Option.bind_some] at h ⊢
  split at h
  next hnone =>
    rw [if_pos hnone]
    cases h
    rfl
  next hnone =>
    rw [if_neg hnone]
    obtain ⟨y, hversion, h⟩ := Option.bind_eq_some_iff.mp h
    rw [answerVersion_snd hversion]
    obtain ⟨sent, e⟩ := y
    cases e with
    | error e =>
      cases h
      rfl
    | ok q =>
      dsimp only [Option.bind_some, Except.map] at h ⊢
      obtain ⟨e, hheaders, h⟩ := Option.bind_eq_some_iff.mp h
      have hsame : (if 0 < q.major then q.parseHeaders (HttpHeaders.readUntil stream).2 else some (.ok q)) =
          some (e.map Prod.fst) := by
        split at hheaders
        next hpos =>
          rw [if_pos hpos]
          rw [parseHeadersStream_eq] at hheaders
          obtain ⟨e', he', rfl⟩ := Option.map_eq_some_iff.mp hheaders
          rw [he']
          cases e' <;> rfl
        next hpos =>
          rw [if_neg hpos]
          cases hheaders
          rfl
      rw [hsame, Option.bind_some]
      cases e with
      | error e =>
        cases h
        rfl
      | ok y =>
        dsimp only [Except.map] at h ⊢
        obtain ⟨host, hhost, h⟩ := Option.bind_eq_some_iff.mp h
        rw [hhost, Option.bind_some]
        cases host with
        | error e =>
          rw [badRequest_snd h, checkHost_error hhost]
        | ok u =>
          dsimp only at h ⊢
          obtain ⟨e, hlength, h⟩ := Option.bind_eq_some_iff.mp h
          rw [hlength]
          cases e with
          | error e =>
            cases h
            rfl
          | ok p =>
            cases h
            rfl

end HttpRequest

end Srl
