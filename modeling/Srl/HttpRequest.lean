import Srl.HttpHeaders
import Srl.Numerals

namespace Srl

open Bytes KeyedList Dictionary

/-- A request, without its socket, its handler and its logger. -/
structure HttpRequest where
  content : Bytes
  content_length : UInt32
  headers : Dictionary Bytes Bytes
  method : Bytes
  uri : Bytes
  request_version : Bytes
  major : UInt32
  minor : UInt32

namespace HttpRequest

inductive Stop
  | IOException (message : Bytes)
  | headers (e : HttpHeaders.Stop)
  | dictionary (e : DictException)

/-- `_parseVersion`, without the answer that is sent before an exception. -/
def parseVersion (r : HttpRequest) : Option (Except Stop HttpRequest) :=
  if r.request_version ≠ [] then
    if r.request_version.beginsWith (bytes "HTTP/") then do
      let major ← r.request_version.betweenChars 47 46
      let minor ← r.request_version.betweenChars 46 13
      let r := { r with major := (int major 10).toUInt32, minor := (int minor 10).toUInt32 }
      if r.major = 0 ∧ r.minor = 0 then
        some (.error (.IOException (bytes "Bad Request Version: " ++ cstr r.request_version)))
      else some (.ok { r with request_version := r.request_version.trimEnd })
    else some (.error (.IOException (bytes "Bad Request Version: " ++ cstr r.request_version)))
  else if r.method.same (bytes "GET") then
    some (.ok { r with request_version := bytes "HTTP/0.9", major := 0, minor := 9 })
  else some (.ok r)

/-- `_parseRequest` up to its call of `_parseVersion`, with the rest of the stream. -/
def parseRequestLine (r : HttpRequest) (stream : Bytes) : Option (Except Stop (HttpRequest × Bytes)) := do
  let headers ← r.headers.clear
  let content := (HttpHeaders.readUntil stream).1
  if content = [] then some (.error (.IOException (bytes "timed out waiting for headeers\n")))
  else do
    let content := content.trimEnd
    let r := { r with
      headers
      content
      method := content.«section» 32 0
      uri := content.«section» 32 1
      request_version := content.«section» 32 2 }
    let parsed ← r.parseVersion
    some (parsed.map fun r => (r, (HttpHeaders.readUntil stream).2))

/-- The length that the headers give for the content. -/
def getContentLength (r : HttpRequest) : Option (Except Stop HttpRequest) := do
  if ← r.headers.hasKey (bytes "content-length") then
    match ← r.headers.get (bytes "content-length") with
    | .error e => some (.error (.dictionary e))
    | .ok value => some (.ok { r with content_length := (int value 10).toUInt32 })
  else some (.ok { r with content_length := 0 })

/-- `_parseHeaders`. -/
def parseHeaders (r : HttpRequest) (stream : Bytes) : Option (Except Stop HttpRequest) := do
  match ← HttpHeaders.parse r.headers stream with
  | .error e => some (.error (.headers e))
  | .ok s =>
    match ← getContentLength { r with headers := s.fields } with
    | .error e => some (.error e)
    | .ok r => some (.ok { r with content := [] })

/-- The check for a host header. -/
def checkHost (r : HttpRequest) : Option (Except Stop Unit) := do
  if r.major = 1 ∧ 1 ≤ r.minor then
    if ← r.headers.hasKey (bytes "host") then some (.ok ())
    else some (.error (.IOException (bytes "Bad Request: No Host Header")))
  else some (.ok ())

/-- `_parseRequest` up to the call of a handler. -/
def parseRequest (r : HttpRequest) (stream : Bytes) : Option (Except Stop HttpRequest) := do
  match ← r.parseRequestLine stream with
  | .error e => some (.error e)
  | .ok (r, stream) =>
    let withHeaders := if 0 < r.major then r.parseHeaders stream else some (.ok r)
    match ← withHeaders with
    | .error e => some (.error e)
    | .ok r =>
      match ← r.checkHost with
      | .error e => some (.error e)
      | .ok () => r.getContentLength

/-- A part of a request line. -/
def Plain (s : Bytes) : Prop := s ≠ [] ∧ ∀ c ∈ s, 32 < c ∧ c ≠ 127

instance (s : Bytes) : Decidable (Plain s) := by unfold Plain; infer_instance

/-- The value of a decimal numeral. -/
def value (s : Bytes) : Nat := number 10 (digitsOf 10 s)

structure Numeral (s : Bytes) : Prop where
  nonempty : s ≠ []
  digits : ∀ c ∈ s, 48 ≤ c ∧ c ≤ 57
  small : value s < 2 ^ 31

def version (maj min : Bytes) : Bytes := bytes "HTTP/" ++ maj ++ 46 :: min

def requestLine (method uri maj min : Bytes) : Bytes :=
  method ++ 32 :: (uri ++ 32 :: version maj min) ++ bytes "\r\n"

/-- The request has the parts of a line. -/
structure Reads (r : HttpRequest) (method uri maj min : Bytes) : Prop where
  method : r.method = method
  uri : r.uri = uri
  request_version : r.request_version = version maj min
  major : r.major.toNat = value maj
  minor : r.minor.toNat = value min

variable {r : HttpRequest} {m : List (Bytes × Bytes)} {method uri maj min rest : Bytes}

end HttpRequest

end Srl
