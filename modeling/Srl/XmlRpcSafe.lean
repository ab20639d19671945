import Srl.XmlRpcFromXml

namespace Srl

open Bytes Session XML

namespace XmlRpc

/-- The condition of a call. A tag has to be left where the element is used unchecked, and the tag that is
read has to be one that the parser copes with; a message has to fit into the buffer of the logger; no null
pointer may be in a value that is written. -/
def Call.Ok : Call → Prop
  | .next p used => (used = true → p.xml.find 60 p.pos ≠ none) ∧ ∀ text, p.nextTag = some text → Parser.SafeTag text
  | .log length => length < 512
  | .write value => value.asXml ≠ none

/-- A failure that is no exception. -/
def Failure.Fatal : Failure → Prop
  | .exception _ | .unknown => False
  | .crash | .endless => True

/-- The calls of a run of the handler. -/
def audit : Audit State Call Failure := ⟨State.calls, Call.Ok, Failure.Fatal⟩

/-- Nothing was sent yet. -/
def Unsent (s : State) : Prop := s.responses = []

/-- Before a response is sent, the parser reads a string of which fewer than `n` characters are left. -/
def Room (n : Nat) (s : State) : Prop := s.parser.xml_file = none ∧ s.parser.left < n ∧ Unsent s

/-- What is left after an element was looked for. -/
def Found (n : Nat) (found : Bool) (s : State) : Prop := Room n s ∧ (found = true → Room (n - 1) s)

theorem fatal_ofStop {e : Stop} : (Failure.ofStop e).Fatal ↔ e.Fatal := by cases e <;> rfl

variable {α β : Type} {T P : State → Prop} {n m : Nat} {s : State} {c : State → Call} {x : Run α}

theorem Room.of_le (h : Room n s) (hle : n ≤ m) : Room m s := ⟨h.1, Nat.lt_of_lt_of_le h.2.1 hle, h.2.2⟩

theorem Room.unsent (h : Room n s) : Unsent s := h.2.2

theorem Found.unsent {found : Bool} (h : Found n found s) : Unsent s := h.1.2.2

/-- A call that is recorded and then made. -/
theorem audited_record {Q : α → State → Prop}
    (h : ∀ s, P s → (x (s.record (c s))).2.calls = s.calls ++ [c s] ∧
      ((∃ e, (x (s.record (c s))).1 = .error e ∧ e.Fatal) ↔ ¬(c s).Ok) ∧
        (∀ a, (x (s.record (c s))).1 = .ok a → Q a (x (s.record (c s))).2) ∧
          ∀ e, (x (s.record (c s))).1 = .error e → ¬e.Fatal → T (x (s.record (c s))).2) :
    Audited audit T P (modify (fun s => s.record (c s)) >>= fun _ => x) Q := by
  intro s hs
  obtain ⟨hcalls, hfatal, hrest⟩ := h s hs
  refine ⟨[c s], hcalls, ?_, hrest⟩
  rw [List.forall_mem_singleton]
  exact hfatal

theorem onParser_ok {f : Parser → Except Stop (α × Parser)} {a : α} {p : Parser} (h : f s.parser = .ok (a, p)) :
    onParser f s = (.ok a, { s with parser := p }) := by
  unfold onParser
  rw [h]

theorem onParser_error {f : Parser → Except Stop (α × Parser)} {e : Stop} (h : f s.parser = .error e) :
    onParser f s = (.error (.ofStop e), s) := by
  unfold onParser
  rw [h]

theorem onParser_calls {f : Parser → Except Stop (α × Parser)} : (onParser f s).2.calls = s.calls := by
  cases h : f s.parser with
  | error e => rw [onParser_error h]
  | ok r => rw [onParser_ok h]

theorem onParser_unsent {f : Parser → Except Stop (α × Parser)} (h : Unsent s) : Unsent (onParser f s).2 := by
  cases hf : f s.parser with
  | error e =>
    rw [onParser_error hf]
    exact h
  | ok r =>
    rw [onParser_ok hf]
    exact h

/-- The calls on the parser that read no tag. -/
theorem audited_onParser {f : Parser → Except Stop (α × Parser)}
    (h : ∀ p, p.xml_file = none → (∃ a e, f p = .ok (a, { p with element := e })) ∨
      ∃ message argument, f p = .error (.InvalidXML message argument)) :
    Audited audit Unsent (Room n) (onParser f) fun _ => Room n := by
  intro s hs
  refine ⟨[], by rw [List.append_nil]; exact onParser_calls, ?_, ?_, fun _ _ _ => onParser_unsent hs.unsent⟩
  · refine ⟨?_, fun hbad => absurd nofun hbad⟩
    rintro ⟨e, he, hfatal⟩
    rcases h s.parser hs.1 with ⟨a, e', hf⟩ | ⟨message, argument, hf⟩
    · rw [onParser_ok hf] at he
      cases he
    · rw [onParser_error hf] at he
      cases he
      exact hfatal.elim
  · intro a ha
    rcases h s.parser hs.1 with ⟨a', e', hf⟩ | ⟨message, argument, hf⟩
    · rw [onParser_ok hf]
      exact hs
    · rw [onParser_error hf] at ha
      cases ha

theorem audited_hasContent : Audited audit Unsent (Room n) hasContent fun _ => Room n := by
  refine audited_onParser fun p hp => ?_
  rcases Parser.hasContent_string hp with ⟨b, hb⟩ | hbad
  · exact .inl ⟨b, p.element, hb⟩
  · exact .inr hbad

theorem audited_getContent : Audited audit Unsent (Room n) getContent fun _ => Room n :=
  audited_onParser fun _ hp => Parser.getContent_string hp

/-- `getNextElement` fails fatally on a tag that is not safe only. -/
theorem next_fatal (hs : Room n s) :
    (∃ e, (onParser Parser.getNextElement s).1 = .error e ∧ e.Fatal) ↔
      ¬∀ text, s.parser.nextTag = some text → Parser.SafeTag text := by
  have hiff : (∃ text, s.parser.nextTag = some text ∧ ¬Parser.SafeTag text) ↔
      ¬∀ text, s.parser.nextTag = some text → Parser.SafeTag text := by
    rw [not_forall]
    exact exists_congr fun _ => Classical.not_imp.symm
  rw [← hiff, ← Parser.getNextElement_fatal hs.1]
  cases hrun : s.parser.getNextElement with
  | error e =>
    rw [onParser_error hrun]
    constructor
    · rintro ⟨e', he, hfatal⟩
      cases he
      exact ⟨e, rfl, fatal_ofStop.mp hfatal⟩
    · rintro ⟨e', he, hfatal⟩
      cases he
      exact ⟨_, rfl, fatal_ofStop.mpr hfatal⟩
  | ok r =>
    rw [onParser_ok hrun]
    exact ⟨nofun, nofun⟩

theorem next_found {b : Bool} {s' : State} (hs : Room n s) (h : onParser Parser.getNextElement s = (.ok b, s')) :
    Found n b s' ∧ (b = true ↔ s.parser.xml.find 60 s.parser.pos ≠ none) := by
  cases hrun : s.parser.getNextElement with
  | error e =>
    rw [onParser_error hrun] at h
    cases h
  | ok r =>
    rw [onParser_ok hrun] at h
    cases h
    obtain ⟨hfile, hfound, hle, hlt⟩ := Parser.nextElement_ok hs.1 hrun
    have hroom := hs.2.1
    refine ⟨⟨⟨hfile, Nat.lt_of_le_of_lt hle hroom, hs.unsent⟩, fun hb => ⟨hfile, ?_, hs.unsent⟩⟩, hfound⟩
    have hless := hlt hb
    exact Nat.lt_of_lt_of_le hless (Nat.le_sub_one_of_lt hroom)

/-- An error comes of a tag. -/
theorem next_error {e : Failure} {s' : State} (hs : Room n s)
    (h : onParser Parser.getNextElement s = (.error e, s')) : s.parser.xml.find 60 s.parser.pos ≠ none := by
  intro hnone
  cases hrun : s.parser.getNextElement with
  | error e =>
    rw [Parser.getNextElement_string hs.1, hnone] at hrun
    cases hrun
  | ok r =>
    rw [onParser_ok hrun] at h
    cases h

theorem audited_next : Audited audit Unsent (Room n) next (Found n) := by
  refine audited_record fun s hs => ?_
  have hs' : Room n (s.record (.next s.parser false)) := hs
  have hunsent : Unsent (onParser Parser.getNextElement (s.record (.next s.parser false))).2 :=
    onParser_unsent hs'.unsent
  refine ⟨onParser_calls, ?_, fun b hb => (next_found hs' (Prod.ext hb rfl)).1, fun _ _ _ => hunsent⟩
  rw [next_fatal hs']
  exact not_congr ⟨fun h => ⟨nofun, h⟩, fun h => h.2⟩

/-- Where the element is used, there has to be one. -/
theorem audited_nextUsed : Audited audit Unsent (Room n) nextUsed fun _ => Room (n - 1) := by
  refine audited_record fun s hs => ?_
  have hs' : Room n (s.record (.next s.parser true)) := hs
  have hfatal := next_fatal hs'
  cases hrun : onParser Parser.getNextElement (s.record (.next s.parser true)) with
  | mk r s' =>
    have hcalls : s'.calls = _ := (congrArg (fun o => o.2.calls) hrun).symm.trans onParser_calls
    have hunsent := onParser_unsent (f := Parser.getNextElement) hs'.unsent
    rw [hrun] at hfatal hunsent
    cases r with
    | error e =>
      rw [bind_error hrun]
      have hfound := next_error hs' hrun
      refine ⟨hcalls, ?_, nofun, fun _ _ _ => hunsent⟩
      rw [exists_error_iff] at hfatal ⊢
      rw [hfatal]
      exact not_congr ⟨fun h => ⟨fun _ => hfound, h⟩, fun h => h.2⟩
    | ok b =>
      rw [Session.bind_ok hrun]
      obtain ⟨hfound, hiff⟩ := next_found hs' hrun
      have hsafe : ∀ text, s.parser.nextTag = some text → Parser.SafeTag text := by
        by_contra hbad
        obtain ⟨e, he, -⟩ := hfatal.mpr hbad
        cases he
      cases b with
      | true =>
        refine ⟨hcalls, ⟨nofun, fun hbad => absurd ⟨fun _ => hiff.mp rfl, hsafe⟩ hbad⟩, fun _ _ => hfound.2 rfl, nofun⟩
      | false =>
        refine ⟨hcalls, ⟨fun _ hok => ?_, fun _ => ⟨.crash, rfl, trivial⟩⟩, nofun, fun _ _ _ => hunsent⟩
        exact Bool.false_ne_true (hiff.mpr (hok.1 rfl))

theorem audited_element (f : Element → β) : Audited audit T P (do pure (f (← get).parser.element)) fun _ => P :=
  audited_get fun _ hs => audited_pure _ fun _ hs' => hs' ▸ hs

theorem audited_named {tag : Bytes} : Audited audit T P (named tag) fun _ => P := audited_element (·.named tag)

theorem audited_isClosing : Audited audit T P isClosing fun _ => P := audited_element Element.is_closing

theorem audited_require {condition : Bool} {message : String} (hT : ∀ s, P s → T s) :
    Audited audit T P (require condition message) fun _ s => condition = true ∧ P s :=
  audited_ite (fun h => audited_pure _ fun _ hs => ⟨h, hs⟩) fun _ => audited_throw id hT

theorem audited_passed {condition : Bool} {message : String} :
    Audited audit Unsent (Room n) (require condition message) fun _ => Room n :=
  (audited_require fun _ => Room.unsent).mono (fun _ hs => hs) fun _ _ hs => hs.2

/-- A check that the element was found. -/
theorem audited_found {found condition : Bool} {message : String} (h : condition = true → found = true) :
    Audited audit Unsent (Found n found) (require condition message) fun _ => Room (n - 1) :=
  (audited_require fun _ => Found.unsent).mono (fun _ hs => hs) fun _ _ hs => hs.2.2 (h hs.1)

section

variable {values : Run (List RpcValue)} {entries : Run (List (Bytes × RpcValue))} {make : Bytes → Option RpcValue}
  {blank v : RpcValue}

theorem audited_skipTo {f : Bool → Run α} {Q : α → State → Prop} (hf : ∀ b, Audited audit Unsent (Room n) (f b) Q) :
    Audited audit Unsent (Room n) (next >>= f) Q :=
  audited_next.bind fun b => (hf b).mono (fun _ hs => hs.1) fun _ _ hs => hs

theorem audited_skip {x : Run α} {Q : α → State → Prop} (hx : Audited audit Unsent (Room n) x Q) :
    Audited audit Unsent (Room n) (next >>= fun _ => x) Q := audited_skipTo fun _ => hx

theorem audited_finish : Audited audit Unsent (Room n) (finish v) fun _ => Room n :=
  audited_skip (audited_pure _ fun _ hs => hs)

theorem audited_scalarBranch : Audited audit Unsent (Room n) (scalarBranch make blank) fun _ => Room n := by
  refine audited_hasContent.bind fun content => audited_ite (fun _ => ?_) fun _ => audited_skip audited_finish
  refine audited_getContent.bind fun text => ?_
  cases make text with
  | some v => exact audited_skip audited_finish
  | none => exact audited_pure _ fun _ hs => hs

theorem audited_arrayBegin : Audited audit Unsent (Room n) arrayBegin fun _ => Room n := by
  refine audited_next.bind fun found => audited_named.bind fun data => ?_
  exact (audited_require fun _ => Found.unsent).mono (fun _ hs => hs) fun _ _ hs => hs.2.1

theorem audited_arrayEnd : Audited audit Unsent (Room n) arrayEnd fun _ => Room n := by
  refine audited_named.bind fun data => audited_isClosing.bind fun closing => audited_passed.bind fun _ => ?_
  refine audited_next.bind fun found => audited_named.bind fun array => audited_isClosing.bind fun closing => ?_
  exact (audited_require fun _ => Found.unsent).mono (fun _ hs => hs) fun _ _ hs => hs.2.1

theorem audited_memberName : Audited audit Unsent (Room n) memberName fun _ => Room n := by
  refine audited_skipTo fun found => audited_named.bind fun name => audited_isClosing.bind fun closing => ?_
  refine audited_passed.bind fun _ => audited_hasContent.bind fun content => audited_passed.bind fun _ => ?_
  refine audited_getContent.bind fun mname => ?_
  refine audited_skipTo fun found => audited_named.bind fun name => audited_isClosing.bind fun closing => ?_
  refine audited_passed.bind fun _ => audited_skipTo fun found => audited_named.bind fun value => ?_
  exact audited_passed.bind fun _ => audited_pure _ fun _ hs => hs

theorem audited_readBinary : Audited audit Unsent (Room n) readBinary fun _ => Room n := by
  refine audited_hasContent.bind fun content => audited_passed.bind fun _ => audited_getContent.bind fun text => ?_
  refine audited_named.bind fun base64 => audited_isClosing.bind fun closing => audited_passed.bind fun _ => ?_
  exact audited_pure _ fun _ hs => hs

theorem audited_readType (hvalues : Audited audit Unsent (Room n) values fun _ => Room n)
    (hentries : Audited audit Unsent (Room n) entries fun _ => Room n) :
    Audited audit Unsent (Room n) (readType values entries) fun _ => Room n := by
  refine audited_get fun s hs => ?_
  have hscalar : ∀ make blank, Audited audit Unsent (· = s) (scalarBranch make blank) fun _ => Room n :=
    fun make blank =>
    audited_scalarBranch.mono (fun _ hs' => hs' ▸ hs) fun _ _ hs' => hs'
  refine audited_ite (fun _ => hscalar _ _) fun _ => ?_
  refine audited_ite (fun _ => hscalar _ _) fun _ => ?_
  refine audited_ite (fun _ => hscalar _ _) fun _ => ?_
  refine audited_ite (fun _ => hscalar _ _) fun _ => ?_
  refine audited_ite (fun _ => hscalar _ _) fun _ => ?_
  refine Audited.mono ?_ (fun _ hs' => hs' ▸ hs) fun _ _ hs' => hs'
  refine audited_ite (fun _ => ?_) fun _ => ?_
  · exact audited_arrayBegin.bind fun _ => hvalues.bind fun values => audited_arrayEnd.bind fun _ => audited_finish
  · refine audited_ite (fun _ => hentries.bind fun entries => audited_finish) fun _ => ?_
    exact audited_ite (fun _ => audited_readBinary.bind fun v => audited_finish) fun _ => audited_finish

end

theorem set_not_fatal {entries : List (Bytes × RpcValue)} {mname : Bytes} {v : RpcValue} {e : RpcStop}
    (h : RpcStructValue.set entries mname v = .error e) : ¬(Failure.ofRpc e).Fatal := by
  unfold RpcStructValue.set at h
  split at h
  next =>
    cases h
    exact id
  next => cases h

theorem found_of_and {found named closing : Bool} (h : (found && named && !closing) = true) : found = true :=
  (Bool.and_eq_true_iff.mp (Bool.and_eq_true_iff.mp h).1).1

/-- Each level of a value takes at least one tag. -/
theorem audited_read (n : Nat) :
    Audited audit Unsent (Room n) (readValue n) (fun _ => Room n) ∧
      (∀ values, Audited audit Unsent (Room n) (arrayLoop n values) fun _ => Room n) ∧
      ∀ entries, Audited audit Unsent (Room n) (structLoop n entries) fun _ => Room n := by
  induction n with
  | zero =>
    have hnone : ∀ s, Room 0 s → False := fun _ hs => absurd hs.2.1 (Nat.not_lt_zero _)
    exact ⟨fun s hs => (hnone s hs).elim, fun _ s hs => (hnone s hs).elim, fun _ s hs => (hnone s hs).elim⟩
  | succ n ih =>
    obtain ⟨hvalue, hvalues, hentries⟩ := ih
    have hroom : ∀ s, Room n s → Room (n + 1) s := fun _ hs => hs.of_le (Nat.le_succ n)
    refine ⟨?_, fun values => ?_, fun entries => ?_⟩
    · rw [readValue]
      refine audited_named.bind fun value => audited_ite (fun _ => ?_) fun _ => audited_pure _ fun _ hs => hs
      refine audited_hasContent.bind fun content => audited_ite (fun _ => ?_) fun _ => ?_
      · exact audited_getContent.bind fun text => audited_pure _ fun _ hs => hs
      · refine audited_next.bind fun found => (audited_found id).bind fun _ => ?_
        exact (audited_readType (hvalues []) (hentries [])).mono (fun _ hs => hs) fun _ => hroom
    · rw [arrayLoop]
      refine audited_next.bind fun found => audited_named.bind fun value => audited_isClosing.bind fun closing => ?_
      refine audited_ite (fun hmore => ?_) fun _ => audited_pure _ fun _ hs => hs.1
      have hfound := found_of_and hmore
      refine (hvalue.mono (fun _ hs => hs.2 hfound) fun _ _ hs => hs).bind fun v => ?_
      exact (hvalues _).mono (fun _ hs => hs) fun _ => hroom
    · rw [structLoop]
      refine audited_next.bind fun found => audited_named.bind fun value => audited_isClosing.bind fun closing => ?_
      refine audited_ite (fun hmore => ?_) fun _ => audited_pure _ fun _ hs => hs.1
      have hfound := found_of_and hmore
      refine (audited_memberName.mono (fun _ hs => hs.2 hfound) fun _ _ hs => hs).bind fun mname =>
        hvalue.bind fun v => ?_
      cases hset : RpcStructValue.set entries mname v with
      | error e => exact audited_throw (set_not_fatal hset) fun _ => Room.unsent
      | ok struct => exact audited_skip ((hentries struct).mono (fun _ hs => hs) fun _ => hroom)

/-- A loop that is given as many rounds as there are characters. -/
theorem audited_measured {f : Nat → Run α} (h : ∀ m, Audited audit Unsent (Room m) (f m) fun _ => Room m) :
    Audited audit Unsent (Room n) (do f ((← get).parser.left + 1)) fun _ => Room n := by
  refine audited_get fun s hs => (h _).mono (fun s' hs' => ?_) fun _ s' hs' => hs'.of_le hs.2.1
  rw [hs']
  exact ⟨hs.1, Nat.lt_succ_self _, hs.unsent⟩

theorem audited_fromXml : Audited audit Unsent (Room n) fromXml fun _ => Room n :=
  audited_measured fun m => (audited_read m).1

end XmlRpc

end Srl
