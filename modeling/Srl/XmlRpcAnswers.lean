import Srl.XmlRpcProtocol
import Srl.XmlRpcSafe

namespace Srl

open Bytes Session XML

namespace XmlRpc

/-- The handler is done. -/
def Sent (result : Bool) (s : State) : Prop := result = true ∧ s.responses.length = 1

variable {α β : Type} {T P : State → Prop} {n : Nat} {s : State} {protocol : XmlRpcProtocol}

theorem audited_nextNamed {tag : Bytes} : Audited audit Unsent (Room n) (nextNamed tag) (Found n) := by
  refine audited_next.bind fun found => audited_ite (fun hfound => ?_) fun _ => audited_pure _ fun _ hs => ⟨hs.1, nofun⟩
  exact audited_named.mono (fun _ hs => hs) fun _ _ hs => ⟨hs.1, fun _ => hs.2 hfound⟩

theorem audited_argsLoop {args : List RpcValue} : Audited audit Unsent (Room n) (argsLoop n args) fun _ => Room n := by
  induction n generalizing args with
  | zero => exact fun s hs => absurd hs.2.1 (Nat.not_lt_zero _)
  | succ n ih =>
    have hroom : ∀ s, Room n s → Room (n + 1) s := fun _ hs => hs.of_le (Nat.le_succ n)
    rw [argsLoop]
    refine audited_nextNamed.bind fun param => audited_ite (fun hparam => ?_) fun _ => audited_pure _ fun _ hs => hs.1
    refine (audited_nextNamed.mono (fun _ hs => hs.2 hparam) fun _ _ hs => hs.1).bind fun value => ?_
    refine audited_ite (fun _ => ?_) fun _ => audited_pure _ hroom
    exact audited_fromXml.bind fun v => audited_skip (ih.mono (fun _ hs => hs) fun _ => hroom)

theorem audited_params : Audited audit Unsent (Room n) params fun _ => Room n := by
  refine audited_skip ((audited_nextUsed.mono (fun _ hs => hs) fun _ _ hs =>
    hs.of_le (Nat.sub_le n 1)).bind fun _ => ?_)
  refine audited_named.bind fun found => audited_passed.bind fun _ => ?_
  exact audited_measured fun m => audited_argsLoop

theorem audited_methodCallLoop {rounds : Nat} : Audited audit Unsent (Room n) (methodCallLoop rounds)
    fun _ => Room n := by
  induction rounds with
  | zero => exact audited_pure _ fun _ hs => hs
  | succ rounds ih =>
    rw [methodCallLoop]
    refine audited_named.bind fun found => audited_ite (fun _ => audited_pure _ fun _ hs => hs) fun _ => ?_
    refine audited_ite (fun _ => audited_skip (audited_pure _ fun _ hs => hs)) fun _ => ?_
    exact (audited_nextUsed.mono (fun _ hs => hs) fun _ _ hs => hs.of_le (Nat.sub_le n 1)).bind fun _ => ih

theorem audited_methodNameTag : Audited audit Unsent (Room n) methodNameTag fun _ => Room n := by
  refine (audited_nextUsed.mono (fun _ hs => hs) fun _ _ hs => hs.of_le (Nat.sub_le n 1)).bind fun _ => ?_
  refine audited_methodCallLoop.bind fun is_methodCall => audited_ite (fun _ => ?_) fun _ =>
    audited_pure _ fun _ hs => hs
  exact audited_nextNamed.mono (fun _ hs => hs) fun _ _ hs => hs.1

theorem audited_methodName : Audited audit Unsent (Room n) methodName fun _ => Room n := by
  refine audited_methodNameTag.bind fun found => audited_passed.bind fun _ => ?_
  exact audited_hasContent.bind fun content => audited_passed

theorem audited_methodParts : Audited audit Unsent (Room n) methodParts fun _ => Room n := by
  refine audited_getContent.bind fun content => audited_passed.bind fun _ => ?_
  exact audited_getContent.bind fun _ => audited_getContent.bind fun _ => audited_pure _ fun _ hs => hs

/-- A crash is no exception. -/
theorem crash_thrown {r : State} {e : Failure} (he : (.error .crash : Except Failure α) = .error e)
    (h : ¬e.Fatal) : T r := by
  cases he
  exact absurd trivial h

theorem audited_asXml {value : RpcValue} (hP : ∀ s, P s → Unsent s) :
    Audited audit T P (asXml value) fun _ => Unsent := by
  refine audited_record fun s hs => ?_
  have hok : (Call.write value).Ok = (value.asXml ≠ none) := rfl
  rw [hok]
  cases value.asXml with
  | none => exact ⟨rfl, ⟨fun _ => not_not.mpr rfl, fun _ => ⟨.crash, rfl, trivial⟩⟩, nofun, fun _ => crash_thrown⟩
  | some xml => exact ⟨rfl, ⟨nofun, fun hbad => absurd nofun hbad⟩, fun _ _ => hP s hs, nofun⟩

theorem audited_sendResponse {content content_type : Bytes} (hP : ∀ s, P s → Unsent s) :
    Audited audit T P (sendResponse content content_type) fun _ s => s.responses.length = 1 := by
  refine audited_modify (fun _ => rfl) fun s hs => ?_
  show (s.responses ++ [_]).length = 1
  rw [hP s hs]
  rfl

theorem audited_sent {content content_type : Bytes} (hP : ∀ s, P s → Unsent s) :
    Audited audit T P (do
      sendResponse content content_type
      pure true) Sent :=
  (audited_sendResponse hP).bind fun _ => audited_pure _ fun _ hs => ⟨rfl, hs⟩

theorem audited_respond {value : RpcValue} {f : Bytes → Bytes} {content_type : Bytes} (hP : ∀ s, P s → Unsent s) :
    Audited audit T P (do
      let xml ← asXml value
      sendResponse (f xml) content_type
      pure true) Sent :=
  (audited_asXml hP).bind fun _ => audited_sent fun _ hs => hs

theorem audited_info {fmt : String} {args : List Bytes} (hP : ∀ s call, P s → P (s.record call)) :
    Audited audit T P (protocol.info fmt args) fun _ => P := by
  refine audited_ite (fun _ => audited_record fun s hs => ?_) fun _ => audited_pure _ fun _ hs => hs
  split
  next h => exact ⟨rfl, ⟨nofun, fun hbad => absurd h hbad⟩, fun _ _ => hP s _ hs, nofun⟩
  next h => exact ⟨rfl, ⟨fun _ => h, fun _ => ⟨.crash, rfl, trivial⟩⟩, nofun, fun _ => crash_thrown⟩

/-- The members of a fault have different names. -/
theorem fault_eq (message : Bytes) :
    fault message = .ok [(bytes "faultCode", .ofInt (-1)), (bytes "faultString", .ofString message)] := rfl

theorem audited_sendFault {message : Bytes} : Audited audit T Unsent (sendFault message) Sent := by
  unfold sendFault
  rw [fault_eq]
  exact audited_respond fun _ hs => hs

theorem audited_sendError {e : String} : Audited audit T Unsent (protocol.sendError e) Sent := audited_sendFault

theorem not_fatal_ofThrown (e : Thrown) : ¬(Failure.ofThrown e).Fatal := by
  cases e <;> exact id

theorem audited_throwMessage {message : Bytes} {Q : α → State → Prop} :
    Audited audit Unsent (Room n) (throwMessage message) Q :=
  audited_throw id fun _ => Room.unsent

theorem audited_call {service_name method_name : Bytes} :
    Audited audit Unsent (Room n) (protocol.call service_name method_name) Sent := by
  unfold XmlRpcProtocol.call
  cases KeyedList.lookup Hasher.hash protocol.services (Hasher.hash service_name) with
  | none => exact audited_throwMessage
  | some service =>
    refine audited_ite (fun _ => audited_params.bind fun args => ?_) fun _ => audited_throwMessage
    cases service.execute method_name args with
    | error e => exact audited_throw (not_fatal_ofThrown e) fun _ => Room.unsent
    | ok result =>
      cases result with
      | NULL => exact audited_sent fun _ => Room.unsent
      | scalar | array | struct | binary => exact audited_respond fun _ => Room.unsent

theorem audited_answer {request : HttpRequest} : Audited audit Unsent Unsent (protocol.answer request) Sent := by
  unfold XmlRpcProtocol.answer
  cases request.content with
  | error e => exact audited_throw (not_fatal_ofThrown e) fun _ hs => hs
  | ok content =>
    have hstart : Audited audit Unsent Unsent (modify fun s : State => { s with parser := .ofString content })
        fun _ => Room (content.length + 1) :=
      audited_modify (fun _ => rfl) fun _ hs => ⟨rfl, Nat.lt_succ_self _, hs⟩
    refine hstart.bind fun _ => audited_methodName.bind fun _ => audited_methodParts.bind fun parts => ?_
    refine (audited_info fun _ _ hs => hs).bind fun _ => audited_ite (fun _ => ?_) fun _ => audited_call
    exact audited_respond fun _ => Room.unsent

/-- Every exception is answered by a fault. -/
theorem audited_handler {e : Failure} (he : ¬e.Fatal) : Audited audit T Unsent (protocol.handler e) Sent := by
  cases e with
  | exception message => exact audited_sendFault
  | unknown => exact audited_sendError
  | crash | endless => exact absurd trivial he

/-- What is not caught passes through. -/
theorem handler_fatal {e : Failure} (he : e.Fatal) : protocol.handler e = throw e := by
  cases e with
  | exception | unknown => exact he.elim
  | crash | endless => rfl

theorem audited_http_post {request : HttpRequest} :
    Audited audit (fun _ => False) Unsent (protocol.http_post request) Sent := by
  refine (audited_info fun _ _ hs => hs).bind fun _ => audited_ite (fun _ => audited_sendError) fun _ => ?_
  cases request.content_type with
  | none => exact audited_sendError
  | some content_type =>
    refine audited_ite (fun _ => audited_sendError) fun _ => audited_ite (fun _ => audited_sendError) fun _ => ?_
    exact audited_answer.catch (fun _ => audited_handler) fun _ => handler_fatal

/-- A request that comes to the parser. -/
structure Parsed (request : HttpRequest) (content : Bytes) : Prop where
  uri : same request.uri (bytes "/RPC2") = true
  content_type : ∃ content_type, request.content_type = some content_type ∧
    same content_type (bytes "text/html") = false
  contentLength : ¬request.contentLength ≤ 0
  content : request.content = .ok content

theorem nextUsed_crash (hs : Room n s) (htag : s.parser.xml.find 60 s.parser.pos = none) :
    (nextUsed s).1 = .error .crash := by
  have hs' : Room n (s.record (.next s.parser true)) := hs
  show ((onParser Parser.getNextElement >>= fun found => if found then pure () else throw .crash)
    (s.record (.next s.parser true))).1 = _
  cases hrun : onParser Parser.getNextElement (s.record (.next s.parser true)) with
  | mk r s' =>
    cases r with
    | error e =>
      have hfound := next_error hs' hrun
      exact absurd htag hfound
    | ok b =>
      obtain ⟨-, hiff⟩ := next_found hs' hrun
      have hb : b = false := Bool.eq_false_iff.mpr fun hb => hiff.mp hb htag
      rw [Session.bind_ok hrun, hb]
      rfl

/-- Without a tag the first element is missing. -/
theorem fails_methodName :
    Audited audit (fun _ => False) (fun s => Room n s ∧ s.parser.xml.find 60 s.parser.pos = none) methodName
      fun _ _ => False := by
  have hused : Audited audit (fun _ => False) (fun s => Room n s ∧ s.parser.xml.find 60 s.parser.pos = none) nextUsed
      fun _ _ => False :=
    audited_nextUsed.fails (fun _ hs => hs.1) fun s hs => ⟨_, nextUsed_crash hs.1 hs.2, trivial⟩
  have htag : Audited audit (fun _ => False) (fun s => Room n s ∧ s.parser.xml.find 60 s.parser.pos = none)
    methodNameTag
      fun _ _ => False := hused.bind fun _ => audited_false
  exact htag.bind fun _ => audited_false

theorem fails_answer {request : HttpRequest} {content : Bytes} (hcontent : request.content = .ok content)
    (htag : content.find 60 0 = none) :
    Audited audit (fun _ => False) Unsent (protocol.answer request) fun _ _ => False := by
  have hstart : Audited audit (fun _ => False) Unsent (modify fun s : State => { s with parser := .ofString content })
      fun _ s => Room (content.length + 1) s ∧ s.parser.xml.find 60 s.parser.pos = none :=
    audited_modify (fun _ => rfl) fun _ hs => ⟨⟨rfl, Nat.lt_succ_self _, hs⟩, htag⟩
  unfold XmlRpcProtocol.answer
  rw [hcontent]
  exact hstart.bind fun _ => fails_methodName.bind fun _ => audited_false

/-- Nothing answers a text without a tag. -/
theorem http_post_no_tag {request : HttpRequest} {content : Bytes} (h : Parsed request content)
    (htag : content.find 60 0 = none) : ¬protocol.Answers request := by
  obtain ⟨content_type, htype, hhtml⟩ := h.content_type
  have hfails : Audited audit (fun _ => False) Unsent (protocol.http_post request) fun _ _ => False := by
    refine (audited_info fun _ _ hs => hs).bind fun _ => ?_
    rw [h.uri, htype]
    refine audited_ite nofun fun _ => audited_ite (fun hle => absurd hle h.contentLength) fun _ => ?_
    refine audited_ite (fun heq => absurd heq (Bool.eq_false_iff.mp hhtml)) fun _ => ?_
    exact (fails_answer h.content htag).catch (fun _ _ => audited_false) fun _ => handler_fatal
  rintro ⟨hret, -⟩
  obtain ⟨-, -, -, hnone, -⟩ := hfails start rfl
  exact hnone true hret

/-- A text without a tag, posted as it should be. -/
def textRequest : HttpRequest := ⟨bytes "/RPC2", some (bytes "text/xml"), 1, .ok (bytes "x")⟩

end XmlRpc

end Srl
