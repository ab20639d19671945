import Srl.XmlRpcReader

namespace Srl

open Bytes Session XML

namespace XmlRpc

/-- A run ends as a call on its parser does. -/
def Agrees {α : Type} (r : Except Failure α × State) : Except RpcStop (α × Parser) → Prop
  | .ok (a, p) => r.1 = .ok a ∧ r.2.parser = p
  | .error e => r.1 = .error (.ofRpc e)

variable {α β : Type} {s : State} {x : Run α} {g : α → Run β} {o : Except RpcStop (α × Parser)}
  {h : α × Parser → Except RpcStop (β × Parser)} {k : Bool → Run β} {o' : Except RpcStop (β × Parser)}

theorem agrees_bind (hx : Agrees (x s) o) (hg : ∀ a s', Agrees (g a s') (h (a, s'.parser))) :
    Agrees ((x >>= g) s) (o >>= h) := by
  cases hrun : x s with
  | mk r s' =>
    rw [hrun] at hx
    cases o with
    | error e =>
      obtain rfl : r = .error (.ofRpc e) := hx
      rw [bind_error hrun]
      rfl
    | ok b =>
      obtain ⟨hr, hp⟩ : r = .ok b.1 ∧ s'.parser = b.2 := hx
      subst hr
      rw [Session.bind_ok hrun]
      have hstep := hg b.1 s'
      rw [hp] at hstep
      exact hstep

theorem agrees_onParser {f : Parser → Except Stop (α × Parser)} : Agrees (onParser f s) (orStop (f s.parser)) := by
  unfold onParser
  cases f s.parser with
  | error e => rfl
  | ok r => exact ⟨rfl, rfl⟩

theorem agrees_next : Agrees (next s) (orStop s.parser.getNextElement) :=
  @agrees_onParser _ (s.record (.next s.parser false)) Parser.getNextElement

theorem agrees_hasContent : Agrees (hasContent s) (orStop s.parser.hasContent) := agrees_onParser

theorem agrees_getContent : Agrees (getContent s) (orStop s.parser.getContent) := agrees_onParser

theorem agrees_pure (a : α) : Agrees ((pure a : Run α) s) (.ok (a, s.parser)) := ⟨rfl, rfl⟩

theorem agrees_named {tag : Bytes} (hk : Agrees (k (s.parser.element.named tag) s) o') :
    Agrees ((named tag >>= k) s) o' := hk

theorem agrees_isClosing (hk : Agrees (k s.parser.element.is_closing s) o') : Agrees ((isClosing >>= k) s) o' := hk

theorem agrees_require {condition : Bool} {message : String} {y : Unit → Run α} {f : Unit → Except RpcStop (α × Parser)}
    (hy : Agrees (y () s) (f ())) : Agrees ((require condition message >>= y) s) (expect condition message >>= f) := by
  cases condition with
  | true => exact hy
  | false => rfl

theorem agrees_ite {c : Prop} [Decidable c] {x y : Run α} {o o' : Except RpcStop (α × Parser)}
    (hx : Agrees (x s) o) (hy : Agrees (y s) o') : Agrees ((if c then x else y) s) (if c then o else o') := by
  split
  next => exact hx
  next => exact hy

theorem agrees_finish {v : RpcValue} : Agrees (finish v s) (s.parser.finish v) :=
  agrees_bind agrees_next fun _ _ => agrees_pure v

theorem agrees_close {v : RpcValue} :
    Agrees ((next >>= fun _ => finish v) s) (orStop s.parser.getNextElement >>= fun r => r.2.finish v) := by
  refine agrees_bind agrees_next fun found s' => ?_
  exact agrees_finish

theorem agrees_scalarBranch {make : Bytes → Option RpcValue} {blank : RpcValue} :
    Agrees (scalarBranch make blank s) (s.parser.scalarBranch make blank) := by
  refine agrees_bind agrees_hasContent fun content s' => agrees_ite ?_ agrees_close
  refine agrees_bind agrees_getContent fun text s' => ?_
  dsimp only
  cases make text with
  | some v => exact agrees_close
  | none => exact agrees_pure _

/-- A call that returns nothing leaves the parser only. -/
theorem agrees_unit {x : Run Unit} {y : Unit → Run α} {o : Except RpcStop Parser}
    {f : Parser → Except RpcStop (α × Parser)}
    (hx : Agrees (x s) (o.map fun p => ((), p))) (hy : ∀ s', Agrees (y () s') (f s'.parser)) :
    Agrees ((x >>= y) s) (o >>= f) := by
  have hbind := @agrees_bind _ _ s x y _ (fun r => f r.2) hx fun _ s' => hy s'
  cases o with
  | error e => exact hbind
  | ok p => exact hbind

theorem map_bind {o : Except RpcStop α} {f : α → Except RpcStop Parser} :
    (o >>= f).map (fun p => ((), p)) = o >>= fun a => (f a).map fun p => ((), p) := by
  cases o <;> rfl

theorem agrees_check {condition : Bool} {message : String} :
    Agrees (require condition message s)
      ((expect condition message >>= fun _ => .ok s.parser).map fun p => ((), p)) := by
  cases condition with
  | true => exact ⟨rfl, rfl⟩
  | false => rfl

theorem agrees_arrayBegin : Agrees (arrayBegin s) (s.parser.arrayBegin.map fun p => ((), p)) := by
  rw [Parser.arrayBegin, map_bind]
  exact agrees_bind agrees_next fun found s' => agrees_named agrees_check

theorem agrees_arrayEnd : Agrees (arrayEnd s) (s.parser.arrayEnd.map fun p => ((), p)) := by
  rw [Parser.arrayEnd, map_bind]
  refine agrees_named (agrees_isClosing (agrees_require ?_))
  rw [map_bind]
  exact agrees_bind agrees_next fun found s' => agrees_named (agrees_isClosing agrees_check)

theorem agrees_memberName : Agrees (memberName s) s.parser.memberName := by
  refine agrees_bind agrees_next fun found s' => agrees_named (agrees_isClosing (agrees_require ?_))
  refine agrees_bind agrees_hasContent fun content s' => agrees_require ?_
  refine agrees_bind agrees_getContent fun mname s' => agrees_bind agrees_next fun found s' => ?_
  refine agrees_named (agrees_isClosing (agrees_require ?_))
  exact agrees_bind agrees_next fun found s' => agrees_named (agrees_require (agrees_pure mname))

theorem agrees_readBinary : Agrees (readBinary s) s.parser.readBinary := by
  refine agrees_bind agrees_hasContent fun content s' => agrees_require ?_
  exact agrees_bind agrees_getContent fun text s' => agrees_named (agrees_isClosing (agrees_require (agrees_pure _)))

theorem agrees_readType {values : Run (List RpcValue)} {entries : Run (List (Bytes × RpcValue))}
    {array : Parser → Except RpcStop (List RpcValue × Parser)}
    {struct : Parser → Except RpcStop (List (Bytes × RpcValue) × Parser)}
    (hvalues : ∀ s, Agrees (values s) (array s.parser)) (hentries : ∀ s, Agrees (entries s) (struct s.parser)) :
    Agrees (readType values entries s) (s.parser.readType array struct) := by
  refine agrees_ite agrees_scalarBranch (agrees_ite agrees_scalarBranch (agrees_ite agrees_scalarBranch ?_))
  refine agrees_ite agrees_scalarBranch (agrees_ite agrees_scalarBranch
    (agrees_ite ?_ (agrees_ite ?_ (agrees_ite ?_ ?_))))
  · refine agrees_unit agrees_arrayBegin fun s' => agrees_bind (hvalues s') fun values s' => ?_
    exact agrees_unit agrees_arrayEnd fun s' => agrees_finish
  · refine agrees_bind (hentries s) fun entries s' => ?_
    exact agrees_finish
  · refine agrees_bind agrees_readBinary fun v s' => ?_
    exact agrees_finish
  · exact agrees_finish

theorem agrees_read (n : Nat) :
    (∀ s, Agrees (readValue n s) (s.parser.readValue n)) ∧
      (∀ values s, Agrees (arrayLoop n values s) (s.parser.arrayLoop n values)) ∧
      ∀ entries s, Agrees (structLoop n entries s) (s.parser.structLoop n entries) := by
  induction n with
  | zero => exact ⟨fun _ => rfl, fun _ _ => rfl, fun _ _ => rfl⟩
  | succ n ih =>
    obtain ⟨hvalue, hvalues, hentries⟩ := ih
    refine ⟨fun s => ?_, fun values s => ?_, fun entries s => ?_⟩
    · rw [readValue, Parser.readValue]
      refine agrees_named (agrees_ite ?_ (agrees_pure _))
      refine agrees_bind agrees_hasContent fun content s' => agrees_ite ?_ ?_
      · refine agrees_bind agrees_getContent fun text s' => ?_
        exact agrees_pure _
      · refine agrees_bind agrees_next fun found s' => agrees_require ?_
        exact agrees_readType (hvalues []) (hentries [])
    · rw [arrayLoop, Parser.arrayLoop]
      refine agrees_bind agrees_next fun found s' => agrees_named (agrees_isClosing (agrees_ite ?_ (agrees_pure _)))
      refine agrees_bind (hvalue s') fun v s' => ?_
      exact hvalues _ _
    · rw [structLoop, Parser.structLoop]
      refine agrees_bind agrees_next fun found s' => agrees_named (agrees_isClosing (agrees_ite ?_ (agrees_pure _)))
      refine agrees_bind agrees_memberName fun mname s' => agrees_bind (hvalue s') fun v s' => ?_
      dsimp only
      cases RpcStructValue.set entries mname v with
      | error e => rfl
      | ok struct =>
        refine agrees_bind agrees_next fun found s' => ?_
        exact hentries _ _

/-- With its calls recorded, `FromXml` reads what it reads. -/
theorem agrees_fromXml : Agrees (fromXml s) (RpcValue.FromXml s.parser) := (agrees_read _).1 s

end XmlRpc

end Srl
