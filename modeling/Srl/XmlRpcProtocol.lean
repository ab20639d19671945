import Srl.Uri
import Srl.XmlRpcReader

namespace Srl

open Bytes Session XML

namespace XmlRpc

def METHOD_RESPONSE_HEADER : Bytes := bytes "<?xml version=\"1.0\"?>\n<methodResponse><params>"
def METHOD_RESPONSE_FOOTER : Bytes := bytes "</params></methodResponse>\n"
def METHOD_RESPONSE : Bytes := bytes "<?xml version=\"1.0\"?>\n<methodResponse><params>%s</params></methodResponse>\n"
def METHOD_FAULT : Bytes := bytes "<?xml version=\"1.0\"?>\n<methodResponse><fault>%s</fault></methodResponse>\n"

/-- What code outside throws: an `Exception` with its message, or something else. -/
abbrev Thrown := Option Bytes

def Failure.ofThrown : Thrown → Failure
  | some message => .exception message
  | none => .unknown

/-- `RpcMethod::execute`. -/
abbrev RpcMethod := List RpcValue → Except Thrown RpcValue

/-- The bindings of an `RpcService`. -/
abbrev RpcService := List (Bytes × RpcMethod)

/-- `RpcService::execute`. -/
def RpcService.execute (service : RpcService) (method_name : Bytes) (args : List RpcValue) : Except Thrown RpcValue :=
  match KeyedList.lookup Hasher.hash service (Hasher.hash method_name) with
  | some method => method args
  | none => .ok .NULL

/-- What an `XmlRpcProtocol` has: its services under their names, whether its logger prints at `INFO`, and
the name of its host. -/
structure XmlRpcProtocol where
  services : List (Bytes × RpcService)
  logsInfo : Bool
  hostName : Bytes

/-- What the handler asks an `HttpRequest` for. -/
structure HttpRequest where
  uri : Bytes
  content_type : Option Bytes
  contentLength : UInt32
  content : Except Thrown Bytes

/-- `listMethods`. -/
def XmlRpcProtocol.listMethods (protocol : XmlRpcProtocol) : RpcValue :=
  .array (protocol.services.flatMap fun service => service.2.map fun method =>
    .ofString (Format (bytes "%s.%s") [service.1, method.1]))

/-- `_log.info`, which prints into 512 characters on the stack. -/
def XmlRpcProtocol.info (protocol : XmlRpcProtocol) (fmt : String) (args : List Bytes) : Run Unit :=
  if protocol.logsInfo then do
    let length := (Format (bytes fmt) args).length
    modify (·.record (.log length))
    if length < 512 then pure () else throw .crash
  else pure ()

def sendResponse (content content_type : Bytes) : Run Unit :=
  modify fun s => { s with responses := s.responses ++ [⟨content, content_type⟩] }

/-- The members of a fault, which has none of them yet. -/
def fault (message : Bytes) : Except RpcStop (List (Bytes × RpcValue)) := do
  let fault ← RpcStructValue.set [] (bytes "faultCode") (.ofInt (-1))
  RpcStructValue.set fault (bytes "faultString") (.ofString message)

/-- `sendError` of an exception. -/
def sendFault (message : Bytes) : Run Bool :=
  match fault message with
  | .ok fault => do
    let xml ← asXml (.struct fault)
    sendResponse (Format METHOD_FAULT [xml]) (bytes "text/xml")
    pure true
  | .error e => throw (.ofRpc e)

/-- `sendError` of a text. -/
def XmlRpcProtocol.sendError (protocol : XmlRpcProtocol) (e : String) : Run Bool :=
  sendFault (Format (bytes "%s: %s") [protocol.hostName, bytes e])

/-- The rounds that look for the element `methodCall`; after the last one the element is not used. -/
def methodCallLoop : Nat → Run Bool
  | 0 => pure false
  | rounds + 1 => do
    if ← named (bytes "methodCall") then pure true
    else if rounds = 0 then do
      let _ ← next
      pure false
    else do
      nextUsed
      methodCallLoop rounds

/-- The next element is there and has this name. -/
def nextNamed (tag : Bytes) : Run Bool := do
  if ← next then named tag else pure false

/-- The loop over the parameters. -/
def argsLoop : Nat → List RpcValue → Run (List RpcValue)
  | 0, _ => throw .endless
  | fuel + 1, args => do
    if ← nextNamed (bytes "param") then do
      if ← nextNamed (bytes "value") then do
        let v ← fromXml
        let _ ← next
        argsLoop fuel (args ++ [v])
      else pure args
    else pure args

def methodNameTag : Run Bool := do
  nextUsed
  if ← methodCallLoop 4 then nextNamed (bytes "methodName") else pure false

/-- The name of the method, up to its content. -/
def methodName : Run Unit := do
  let found ← methodNameTag
  require found "failed to parse method name"
  let content ← hasContent
  require content "empty XML-RPC method name"

/-- The service and the method that the content of the method name asks for. -/
def methodParts : Run (Bytes × Bytes) := do
  let content ← getContent
  require (content.find 46 0).isSome "no service name specified"
  let service_name := (← getContent).section 46 0
  let method_name := (← getContent).section 46 1
  pure (service_name, method_name)

/-- The parameters behind the method name. -/
def params : Run (List RpcValue) := do
  let _ ← next
  nextUsed
  let found ← named (bytes "params")
  require found "invalid XML-RPC method call syntax: no params tag found"
  argsLoop ((← get).parser.left + 1) []

/-- A call of a method of a service. -/
def XmlRpcProtocol.call (protocol : XmlRpcProtocol) (service_name method_name : Bytes) : Run Bool :=
  match KeyedList.lookup Hasher.hash protocol.services (Hasher.hash service_name) with
  | none => throwMessage (Format (bytes "no service with name: %s") [service_name])
  | some service =>
    if KeyedList.has Hasher.hash service (Hasher.hash method_name) then do
      let args ← params
      match service.execute method_name args with
      | .error e => throw (.ofThrown e)
      | .ok .NULL => do
        sendResponse (METHOD_RESPONSE_HEADER ++ bytes "<value><nil/></value>" ++ METHOD_RESPONSE_FOOTER)
          (bytes "text/html")
        pure true
      | .ok result => do
        let xml ← asXml result
        sendResponse (METHOD_RESPONSE_HEADER ++ xml ++ METHOD_RESPONSE_FOOTER) (bytes "text/html")
        pure true
    else throwMessage (Format (bytes "service:%s does not have method: %s") [service_name, method_name])

/-- What `http_post` tries. -/
def XmlRpcProtocol.answer (protocol : XmlRpcProtocol) (request : HttpRequest) : Run Bool :=
  match request.content with
  | .error e => throw (.ofThrown e)
  | .ok content => do
    modify fun s => { s with parser := .ofString content }
    methodName
    let (service_name, method_name) ← methodParts
    protocol.info "service: '%s'   method: '%s'" [service_name, method_name]
    if same service_name (bytes "system") && same method_name (bytes "listMethods") then do
      let xml ← asXml protocol.listMethods
      sendResponse (Format METHOD_RESPONSE [xml]) (bytes "text/html")
      pure true
    else protocol.call service_name method_name

/-- The handlers behind the `try`. Crashes and endless loops are no exceptions. -/
def XmlRpcProtocol.handler (protocol : XmlRpcProtocol) : Failure → Run Bool
  | .exception message => sendFault message
  | .unknown => protocol.sendError "unknown error in xml request!"
  | e => throw e

def XmlRpcProtocol.http_post (protocol : XmlRpcProtocol) (request : HttpRequest) : Run Bool := do
  protocol.info "xml-rpc post: %s" [request.uri]
  if !same request.uri (bytes "/RPC2") then
    protocol.sendError "invalid XML-RPC method call syntax: invalid URI"
  else match request.content_type with
    | none => protocol.sendError "invalid XML-RPC method call syntax: no content-type"
    | some content_type =>
      if request.contentLength ≤ 0 then protocol.sendError "invalid XML-RPC method call syntax: no content"
      else if same content_type (bytes "text/html") then
        protocol.sendError "invalid XML-RPC method call syntax: bad content-type"
      else tryCatch (protocol.answer request) protocol.handler

/-- Before a request nothing was called or sent. -/
def start : State := ⟨.ofString [], [], []⟩

/-- What `http_post` ends with, and what it has called and sent. -/
def XmlRpcProtocol.post (protocol : XmlRpcProtocol) (request : HttpRequest) : Except Failure Bool × State :=
  protocol.http_post request start

/-- It returns and has sent one response. -/
def XmlRpcProtocol.Answers (protocol : XmlRpcProtocol) (request : HttpRequest) : Prop :=
  (protocol.post request).1 = .ok true ∧ (protocol.post request).2.responses.length = 1

end XmlRpc

end Srl
