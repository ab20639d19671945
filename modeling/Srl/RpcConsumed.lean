import Srl.RpcPositions

namespace Srl

open Bytes XML XML.Parser

theorem bind_ok {α β : Type} {x : Except RpcStop α} {f : α → Except RpcStop β} {b : β}
    (h : x >>= f = .ok b) : ∃ a, x = .ok a ∧ f a = .ok b := by
  cases x with
  | error e => simp [bind, Except.bind] at h
  | ok a => exact ⟨a, rfl, h⟩

/-- Where `FromXml` may leave the parser when `K` stands behind the value `d`: at `K`, which
takes a typed value, inside the value, or one element too far. -/
inductive Outcome (d : Doc) (K : List Piece) (tail : Bytes) (p' : Parser) : Prop
  | exact : d.Typed → Reads p' K tail → Outcome d K tail p'
  | inside {U} : Rest K U → Reads p' U tail → Outcome d K tail p'
  | past {q b} : Reads q K tail → orStop q.getNextElement = .ok (b, p') → Outcome d K tail p'

/-- All values that are read with the fuel `k` end so. -/
def Settled (k : Nat) : Prop :=
  ∀ {d p g K tail v p'}, Doc.WellFormed d → p.element = (⟨g, .opening, VALUE_TAG⟩ : Piece).element →
    Reads p (d.body ++ K) tail → readValue k p = .ok (v, p') → Outcome d K tail p'

namespace XML.Parser

variable {p p' q : Parser} {t c : Piece} {K M R : List Piece} {tail : Bytes} {n : Nat}
  {a : List RpcValue} {m : List (Bytes × RpcValue)}

theorem next_eq {b : Bool} (h : Reads p (t :: K) tail) (ht : t.Plain)
    (hp : orStop p.getNextElement = .ok (b, p')) : Reads p' K tail := by
  obtain ⟨q, hq, hr, -⟩ := orStop_next h ht
  cases Except.ok.inj (hq.symm.trans hp)
  exact hr

theorem finish_ok {v w : RpcValue} (h : finish v p = .ok (w, p')) :
    ∃ b, orStop p.getNextElement = .ok (b, p') := by
  obtain ⟨⟨b, q⟩, hq, h⟩ := bind_ok h
  cases Except.ok.inj h
  exact ⟨b, hq⟩

/-- The array loop rejects a document when it stops in front of another tag than `data`. -/
theorem arrayLoop_reject {r : List RpcValue} (h : Reads p (t :: K) tail) (ht : t.Plain)
    (hv : t.form = .opening → t.name ≠ VALUE_TAG) (hd : t.form ≠ .opening → t.name ≠ DATA_TAG)
    (hrun : arrayLoop n a p = .ok (r, p')) (hend : arrayEnd p' = .ok q) : False := by
  cases n with
  | zero => simp [arrayLoop] at hrun
  | succ n =>
    obtain ⟨p₁, hp₁, -, he₁⟩ := arrayLoop_stop (n := n) (a := a) h ht hv
    cases Except.ok.inj (hp₁.symm.trans hrun)
    obtain ⟨e, he⟩ := arrayEnd_error he₁ ht hd
    rw [he] at hend
    cases hend

/-- Inside a value, an array loop rejects the document or finds the end of an inner array. -/
theorem arrayLoop_inside (hV : ∀ k < n, Settled k) {r : List RpcValue} (hR : Rest K R)
    (h : Reads p R tail) (hrun : arrayLoop n a p = .ok (r, p')) (hend : arrayEnd p' = .ok q) :
    ∃ U, Rest K U ∧ Reads q U tail := by
  induction n generalizing p a R with
  | zero => simp [arrayLoop] at hrun
  | succ n ih =>
    have ih := fun {p a R} => ih (p := p) (a := a) (R := R) fun k hk => hV k (by omega)
    cases hR with
    | close ht =>
      exact (arrayLoop_reject h (Piece.plain_of_text ht (by decide)) (by simp)
        (fun _ => show VALUE_TAG ≠ DATA_TAG by decide) hrun hend).elim
    | step ht _ => exact (arrayLoop_reject h ht.plain (fun hf => (ht.opening hf).1) ht.closing hrun hend).elim
    | value hg hd hu hrest hskip =>
      obtain ⟨p₁, hp₁, hr₁, he₁⟩ := arrayLoop_value (n := n) (a := a) h hg
      obtain ⟨⟨v, p₂⟩, hp₂, hrun⟩ := bind_ok (hp₁.symm.trans hrun)
      obtain ⟨_, hr₂⟩ | ⟨hU, hr₂⟩ | ⟨hq, hq'⟩ := hV n (by omega) hd he₁ hr₁ hp₂
      · exact ih hrest hr₂ hrun
      · exact ih (hU.trans hrest) hr₂ hrun
      · exact ih hskip (next_eq hq hu hq') hrun
    | @member s d R hs hd _ =>
      exact (arrayLoop_reject h (Piece.plain_of_gap hs.gap (by decide))
        (fun _ => show MEMBER_TAG ≠ VALUE_TAG by decide) (by simp) hrun hend).elim
    | endData ht hn hf hg hrest =>
      obtain ⟨p₁, hp₁, hr₁, he₁⟩ := arrayLoop_stop (n := n) (a := a) h ht fun hf' => absurd hf' hf
      cases Except.ok.inj (hp₁.symm.trans hrun)
      obtain ⟨p₂, hp₂, hr₂⟩ := arrayEnd_spec he₁ ht hn hf hr₁ hg
      cases Except.ok.inj (hp₂.symm.trans hend)
      exact ⟨_, hrest, hr₂⟩

/-- The loop over the items of an array. -/
theorem arrayLoop_items (hV : ∀ k < n, Settled k) {r : List RpcValue} {g₃ g₄ : Bytes}
    {items : List (Bytes × Doc)} (wf : Doc.ItemsWellFormed items) (hg₃ : Gap g₃) (hg₄ : Gap g₄)
    (hK : Rest K R)
    (h : Reads p (Doc.itemsBody items ++ ⟨g₃, .closing, DATA_TAG⟩ :: ⟨g₄, .closing, ARRAY_TAG⟩ :: R) tail)
    (hrun : arrayLoop n a p = .ok (r, p')) (hend : arrayEnd p' = .ok q) :
    (Doc.ItemsTyped items ∧ Reads q R tail) ∨
      ∃ t U, t.Plain ∧ Rest K U ∧ Reads q (t :: U) tail := by
  have hdata : (⟨g₃, .closing, DATA_TAG⟩ : Piece).Plain := Piece.plain_of_gap hg₃ (by decide)
  induction items generalizing p a n with
  | nil =>
    cases n with
    | zero => simp [arrayLoop] at hrun
    | succ n =>
      obtain ⟨p₁, hp₁, hr₁, he₁⟩ := arrayLoop_stop (n := n) (a := a) h hdata (by simp)
      cases Except.ok.inj (hp₁.symm.trans hrun)
      obtain ⟨p₂, hp₂, hr₂⟩ := arrayEnd_spec he₁ hdata rfl (by simp) hr₁ hg₄
      cases Except.ok.inj (hp₂.symm.trans hend)
      exact Or.inl ⟨trivial, hr₂⟩
  | cons item items ih =>
    obtain ⟨g, d⟩ := item
    obtain ⟨hg, hd, hitems⟩ := wf
    cases n with
    | zero => simp [arrayLoop] at hrun
    | succ n =>
      have hV' : ∀ k < n, Settled k := fun k hk => hV k (by omega)
      have hrest := (Rest.ofItems items hitems (Rest.Follows.endData hg₃ hg₄ hK)).rest
      simp only [Doc.itemsBody, List.cons_append, List.append_assoc] at h
      obtain ⟨p₁, hp₁, hr₁, he₁⟩ := arrayLoop_value (n := n) (a := a) h hg
      obtain ⟨⟨v, p₂⟩, hp₂, hrun⟩ := bind_ok (hp₁.symm.trans hrun)
      obtain ⟨htd, hr₂⟩ | ⟨hU, hr₂⟩ | ⟨hq, hq'⟩ := hV n (by omega) hd he₁ hr₁ hp₂
      · obtain ⟨htyped, hr₃⟩ | hin := ih hV' hitems hr₂ hrun
        · exact Or.inl ⟨⟨htd, htyped⟩, hr₃⟩
        · exact Or.inr hin
      · -- The item was left too early: the loop stays inside it or gives up.
        obtain ⟨U', hU', hr₃⟩ := arrayLoop_inside hV' hU hr₂ hrun hend
        obtain ⟨t, U'', rfl⟩ := hU'.exists_cons
        exact Or.inr ⟨t, U'', (hU'.skip hrest).1, (hU'.skip hrest).2, hr₃⟩
      · -- One tag is missing: neither a value nor the end of the data follows.
        cases items with
        | nil =>
          exact (arrayLoop_reject (next_eq hq hdata hq') (Piece.plain_of_gap hg₄ (by decide)) (by simp)
            (fun _ => show ARRAY_TAG ≠ DATA_TAG by decide) hrun hend).elim
        | cons item items =>
          obtain ⟨g', d'⟩ := item
          obtain ⟨u, R', hbody, hu, huv, hud⟩ := Doc.body_head hitems.2.1
          have hr₃ := next_eq hq (Piece.plain_of_gap hitems.1 (by decide)) hq'
          rw [hbody] at hr₃
          exact (arrayLoop_reject hr₃ hu huv (fun _ => hud) hrun hend).elim

theorem structLoop_leave {r : List (Bytes × RpcValue)} (h : Reads p (t :: K) tail) (ht : t.Plain)
    (hn : t.form = .opening → t.name ≠ MEMBER_TAG) (hrun : structLoop n m p = .ok (r, p')) :
    Reads p' K tail := by
  cases n with
  | zero => simp [structLoop] at hrun
  | succ n =>
    obtain ⟨p₁, hp₁, hr₁, -⟩ := structLoop_stop (n := n) (m := m) h ht hn
    cases Except.ok.inj (hp₁.symm.trans hrun)
    exact hr₁

/-- Inside a member, a struct loop stops in front of what follows the member. -/
theorem structLoop_inside (hV : ∀ k < n, Settled k) {r : List (Bytes × RpcValue)} (hc : Passed c)
    (hR : R = c :: M ∨ Rest (c :: M) R) (h : Reads p R tail) (hrun : structLoop n m p = .ok (r, p')) :
    ∃ U, (U = M ∨ U = c :: M ∨ Rest (c :: M) U) ∧ Reads p' U tail := by
  induction n generalizing p m R with
  | zero => simp [structLoop] at hrun
  | succ n ih =>
    have stop : ∀ {t U}, Reads p (t :: U) tail → t.Plain →
        (t.form = .opening → t.name ≠ MEMBER_TAG) → Reads p' U tail :=
      fun h ht hn => structLoop_leave h ht hn hrun
    obtain rfl | hR := hR
    · exact ⟨M, Or.inl rfl, stop h hc.plain fun hf => (hc.opening hf).2⟩
    · cases hR with
      | close ht => exact ⟨_, Or.inr (Or.inl rfl), stop h (Piece.plain_of_text ht (by decide)) (by simp)⟩
      | step ht hrest => exact ⟨_, Or.inr (Or.inr hrest), stop h ht.plain fun hf => (ht.opening hf).2⟩
      | value hg hd hu hrest _ =>
        exact ⟨_, Or.inr (Or.inr ((Rest.ofBody _ hd).trans hrest)),
          stop h (Piece.plain_of_gap hg (by decide)) fun _ => show VALUE_TAG ≠ MEMBER_TAG by decide⟩
      | endData ht _ hf hg hrest =>
        exact ⟨_, Or.inr (Or.inr (Rest.step (.ofClosing hg.plainText (by decide) (by decide)) hrest)),
          stop h ht fun hf' => absurd hf' hf⟩
      | @member s d R hs hd hrest =>
        have hend : Passed ⟨s.endGap, .closing, MEMBER_TAG⟩ :=
          .ofClosing hs.endGap.plainText (by decide) (by decide)
        have hmember := structLoop_member (n := n) (m := m) h hs
        split at hmember
        next =>
          obtain ⟨p₁, hp₁, hr₁, he₁⟩ := hmember
          obtain ⟨⟨v, p₂⟩, hp₂, hrun⟩ := bind_ok (hp₁.symm.trans hrun)
          obtain ⟨m', -, hrun⟩ := bind_ok hrun
          obtain ⟨⟨b, p₃⟩, hp₃, hrun⟩ := bind_ok hrun
          have ih := fun {R} => ih (R := R) (p := p₃) (m := m') fun k hk => hV k (by omega)
          obtain ⟨_, hr₂⟩ | ⟨hU, hr₂⟩ | ⟨hq, hq'⟩ := hV n (by omega) hd he₁ hr₁ hp₂
          · exact ih (Or.inr hrest) (next_eq hr₂ hend.plain hp₃) hrun
          · obtain ⟨t, U, rfl⟩ := hU.exists_cons
            obtain ⟨ht, hU'⟩ := hU.skip (Rest.step hend hrest)
            exact ih (Or.inr hU') (next_eq hr₂ ht hp₃) hrun
          · obtain ⟨t, U, rfl⟩ := hrest.exists_cons
            exact ih hrest.tail.2 (next_eq (next_eq hq hend.plain hq') hrest.tail.1 hp₃) hrun
        next =>
          obtain ⟨e, he⟩ := hmember
          rw [he] at hrun
          cases hrun

/-- The first tags behind a member, at the next one or at the end of the struct. -/
theorem members_head {g₂ g₃ : Bytes} (hg₂ : Gap g₂) (hg₃ : Gap g₃) :
    ∀ {members}, Doc.MembersWellFormed members →
      ∃ t u V, Doc.membersBody members ++ ⟨g₂, .closing, STRUCT_TAG⟩ :: ⟨g₃, .closing, VALUE_TAG⟩ :: K =
          t :: u :: V ∧
        t.Plain ∧ u.Plain ∧ (u.form = .opening → u.name ≠ MEMBER_TAG) ∧ Rest K (u :: V) ∧
        (V = K ∨ ∃ w W, V = w :: W ∧ w.Plain ∧ Rest K W)
  | [], _ =>
    ⟨_, _, _, rfl, Piece.plain_of_gap hg₂ (by decide), Piece.plain_of_gap hg₃ (by decide), by simp,
      Rest.close hg₃.plainText, Or.inl rfl⟩
  | (s, d) :: members, ⟨hs, hd, hmembers⟩ => by
    have hend : Rest K (⟨g₂, .closing, STRUCT_TAG⟩ :: ⟨g₃, .closing, VALUE_TAG⟩ :: K) :=
      Rest.step (.ofClosing hg₂.plainText (by decide) (by decide)) (Rest.close hg₃.plainText)
    have hrest := Rest.ofMembers members hmembers hend
    have hvalue := (Rest.Follows.ofClosing hs.endGap (show MEMBER_TAG ∈ TAGS by decide) (by decide) hrest).value
      hs.valueGap hd
    refine ⟨⟨s.gap, .opening, MEMBER_TAG⟩, ⟨s.nameGap, .opening, NAME_TAG⟩, _, ?_,
      Piece.plain_of_gap hs.gap (by decide), Piece.plain_of_gap hs.nameGap (by decide),
      fun _ => show NAME_TAG ≠ MEMBER_TAG by decide, Rest.name hs hd hrest,
      Or.inr ⟨_, _, rfl, Piece.plain_of_text hs.name (by decide), hvalue⟩⟩
    simp [Doc.membersBody_cons, header]

/-- The loop over the members of a struct. -/
theorem structLoop_members (hV : ∀ k < n, Settled k) {r : List (Bytes × RpcValue)} {g₂ g₃ : Bytes}
    {members : List (Slot × Doc)} (wf : Doc.MembersWellFormed members) (hg₂ : Gap g₂) (hg₃ : Gap g₃)
    (hm : (m.map fun x => x.1.hash).Nodup)
    (h : Reads p (Doc.membersBody members ++ ⟨g₂, .closing, STRUCT_TAG⟩ :: ⟨g₃, .closing, VALUE_TAG⟩ :: K) tail)
    (hrun : structLoop n m p = .ok (r, p')) :
    (Doc.MembersTyped members ∧
        ((m.map fun x => x.1.hash) ++ members.map fun x => x.1.name.hash).Nodup ∧
        Reads p' (⟨g₃, .closing, VALUE_TAG⟩ :: K) tail) ∨
      (∃ t U, t.Plain ∧ Rest K U ∧ Reads p' (t :: U) tail) ∨ Reads p' K tail := by
  have hK : Rest K (⟨g₃, .closing, VALUE_TAG⟩ :: K) := Rest.close hg₃.plainText
  induction members generalizing p m n with
  | nil =>
    exact Or.inl ⟨trivial, by simpa using hm,
      structLoop_leave h (Piece.plain_of_gap hg₂ (by decide)) (by simp) hrun⟩
  | cons member members ih =>
    obtain ⟨s, d⟩ := member
    obtain ⟨hs, hd, hmembers⟩ := wf
    have hend : Passed ⟨s.endGap, .closing, MEMBER_TAG⟩ :=
      .ofClosing hs.endGap.plainText (by decide) (by decide)
    cases n with
    | zero => simp [structLoop] at hrun
    | succ n =>
      have hV' : ∀ k < n, Settled k := fun k hk => hV k (by omega)
      have hrest := Rest.ofMembers members hmembers
        (Rest.step (.ofClosing hg₂.plainText (show STRUCT_TAG ∈ TAGS by decide) (by decide)) hK)
      simp only [Doc.membersBody_cons, List.append_assoc, List.cons_append] at h
      have hmember := structLoop_member (n := n) (m := m) h hs
      split at hmember
      next hink =>
        obtain ⟨p₁, hp₁, hr₁, he₁⟩ := hmember
        obtain ⟨⟨v, p₂⟩, hp₂, hrun⟩ := bind_ok (hp₁.symm.trans hrun)
        obtain ⟨m', hset, hrun⟩ := bind_ok hrun
        obtain ⟨⟨b, p₃⟩, hp₃, hrun⟩ := bind_ok hrun
        obtain ⟨hfresh, rfl⟩ := set_ok hset
        obtain ⟨t, u, V, hM, ht, hu, hun, huV, hV₂⟩ := members_head (K := K) hg₂ hg₃ hmembers
        obtain ⟨htd, hr₂⟩ | ⟨hU, hr₂⟩ | ⟨hq, hq'⟩ := hV n (by omega) hd he₁ hr₁ hp₂
        · have hnd : ((m ++ [(s.name, v)]).map fun x => x.1.hash).Nodup := by
            rw [List.map_append, List.nodup_append']
            exact ⟨hm, by simp, by simpa using hfresh⟩
          obtain ⟨htyped, hnames, hr₃⟩ | hout := ih hV' hmembers hnd (next_eq hr₂ hend.plain hp₃) hrun
          · exact Or.inl ⟨⟨hink, htd, htyped⟩, by simpa using hnames, hr₃⟩
          · exact Or.inr hout
        · -- The value was left too early: the loop ends inside it or right behind it.
          obtain ⟨w, U, rfl⟩ := hU.exists_cons
          obtain ⟨W, hW, hr₃⟩ := structLoop_inside hV' hend hU.tail.2 (next_eq hr₂ hU.tail.1 hp₃) hrun
          right; left
          obtain rfl | rfl | hW := hW
          · rw [hM] at hr₃
            exact ⟨t, u :: V, ht, huV, hr₃⟩
          · exact ⟨_, _, hend.plain, hrest, hr₃⟩
          · obtain ⟨w, W, rfl⟩ := hW.exists_cons
            obtain ⟨hw, hW'⟩ := hW.skip (Rest.step hend hrest)
            exact ⟨w, W, hw, hW', hr₃⟩
        · -- One tag too far: the loop takes the tag behind the next one for its end.
          have hr₃ := next_eq hq hend.plain hq'
          rw [hM] at hr₃
          have hr₄ := structLoop_leave (next_eq hr₃ ht hp₃) hu hun hrun
          obtain rfl | ⟨w, W, rfl, hw, hW⟩ := hV₂
          · exact Or.inr (Or.inr hr₄)
          · exact Or.inr (Or.inl ⟨w, W, hw, hW, hr₄⟩)
      next =>
        obtain ⟨e, he⟩ := hmember
        rw [he] at hrun
        cases hrun

/-- One step of the reader settles its values when all smaller ones are settled. -/
theorem settled (n : Nat) : Settled n := by
  induction n using Nat.strong_induction_on with
  | _ n hV =>
    intro d p g K tail v p' wf he h hrun
    obtain _ | n := n
    · simp [readValue] at hrun
    have hV' : ∀ k < n, Settled k := fun k hk => hV k (by omega)
    have value_tag := show VALUE_TAG ∈ TAGS by decide
    cases d with
    | scalar type g₁ text g₂ =>
      obtain ⟨hg₁, htext, hg₂, hmake⟩ := wf
      obtain ⟨p₁, hp₁, hr₁, he₁⟩ :=
        readValue_tag (n := n) he h (Piece.plain_of_gap hg₁ type.tag_mem) hg₁.not_inked
      obtain ⟨p₂, hp₂, hr₂, -⟩ :=
        scalarBranch_spec type.blank he₁ rfl hr₁ (Piece.plain_of_text htext type.tag_mem) hg₂ hmake
      rw [hp₁, readType_scalar type (by rw [he₁]; rfl), hp₂] at hrun
      cases Except.ok.inj hrun
      exact .exact trivial hr₂
    | empty type g₁ g₂ =>
      obtain ⟨hg₁, hg₂⟩ := wf
      obtain ⟨p₁, hp₁, hr₁, he₁⟩ :=
        readValue_tag (n := n) he h (Piece.plain_of_gap hg₁ (Doc.emptyTag_mem type)) hg₁.not_inked
      rw [hp₁] at hrun
      obtain _ | type := type
      · rw [readType_struct (by rw [he₁]; rfl)] at hrun
        obtain ⟨⟨r, p₂⟩, hp₂, hrun⟩ := bind_ok hrun
        obtain ⟨b, hb⟩ := finish_ok hrun
        exact .past (structLoop_leave hr₁ (Piece.plain_of_gap hg₂ value_tag) (by simp) hp₂) hb
      · obtain ⟨p₂, hp₂, hr₂⟩ := scalarBranch_empty type.make type.blank he₁ (by simp) hr₁
          (Piece.plain_of_gap hg₂ value_tag)
        rw [readType_scalar type (by rw [he₁]; rfl), hp₂] at hrun
        obtain ⟨b, hb⟩ := finish_ok hrun
        exact .past hr₂ hb
    | untyped text =>
      by_cases hi : Inked text
      · obtain ⟨p₁, hp₁, hr₁⟩ := readValue_untyped (n := n) he h wf hi
        cases Except.ok.inj (hp₁.symm.trans hrun)
        exact .inside (.close wf) hr₁
      · obtain ⟨p₁, hp₁, hr₁, he₁⟩ := readValue_tag (n := n) he h (Piece.plain_of_text wf value_tag) hi
        rw [hp₁, readType_value (by rw [he₁]; rfl)] at hrun
        obtain ⟨b, hb⟩ := finish_ok hrun
        exact .past hr₁ hb
    | emptyData g₁ g₂ g₃ g₄ =>
      obtain ⟨hg₁, hg₂, hg₃, hg₄⟩ := wf
      obtain ⟨p₂, hp₂, hr₂⟩ := readValue_array (n := n) he h hg₁ (Piece.plain_of_gap hg₂ (by decide)) rfl
      rw [hp₂] at hrun
      obtain ⟨⟨r, p₃⟩, hp₃, hrun⟩ := bind_ok hrun
      obtain ⟨p₄, hp₄, -⟩ := bind_ok hrun
      exact (arrayLoop_reject hr₂ (Piece.plain_of_gap hg₃ (by decide)) (by simp)
        (fun _ => show ARRAY_TAG ≠ DATA_TAG by decide) hp₃ hp₄).elim
    | array g₁ g₂ items g₃ g₄ g₅ =>
      obtain ⟨hg₁, hg₂, hitems, hg₃, hg₄, hg₅⟩ := wf
      simp only [Doc.body, List.cons_append, List.append_assoc] at h
      obtain ⟨p₂, hp₂, hr₂⟩ := readValue_array (n := n) he h hg₁ (Piece.plain_of_gap hg₂ (by decide)) rfl
      rw [hp₂] at hrun
      obtain ⟨⟨r, p₃⟩, hp₃, hrun⟩ := bind_ok hrun
      obtain ⟨p₄, hp₄, hrun⟩ := bind_ok hrun
      obtain ⟨b, hb⟩ := finish_ok hrun
      obtain ⟨htyped, hr₄⟩ | ⟨t, U, ht, hU, hr₄⟩ :=
        arrayLoop_items hV' hitems hg₃ hg₄ (Rest.close hg₅.plainText) hr₂ hp₃ hp₄
      · exact .exact htyped (next_eq hr₄ (Piece.plain_of_gap hg₅ value_tag) hb)
      · exact .inside hU (next_eq hr₄ ht hb)
    | struct g₁ members g₂ g₃ =>
      obtain ⟨hg₁, hmembers, hg₂, hg₃⟩ := wf
      simp only [Doc.body, List.cons_append, List.append_assoc] at h
      obtain ⟨p₁, hp₁, hr₁⟩ := readValue_struct (n := n) he h hg₁
      rw [hp₁] at hrun
      obtain ⟨⟨r, p₂⟩, hp₂, hrun⟩ := bind_ok hrun
      obtain ⟨b, hb⟩ := finish_ok hrun
      obtain ⟨htyped, hnames, hr₂⟩ | ⟨t, U, ht, hU, hr₂⟩ | hr₂ :=
        structLoop_members hV' hmembers hg₂ hg₃ (by simp) hr₁ hp₂
      · exact .exact ⟨htyped, by simpa using hnames⟩ (next_eq hr₂ (Piece.plain_of_gap hg₃ value_tag) hb)
      · exact .inside hU (next_eq hr₂ ht hb)
      · exact .past hr₂ hb

end XML.Parser

/-- `FromXml` ends at a closing value tag, in front of what stands behind the value. -/
def Consumed (p : Parser) (ts : List Piece) (tail : Bytes) : Prop :=
  ∃ v p', RpcValue.FromXml p = .ok (v, p') ∧ p'.element = closedValue ∧ Reads p' ts tail

theorem Reads.not_past {p p' : Parser} {ts : List Piece} {tail : Bytes} {b : Bool} (h : Reads p ts tail)
    (hp : orStop p.getNextElement = .ok (b, p')) (hname : p'.element.name ≠ []) : ¬Reads p' ts tail := by
  intro h'
  cases hnext : p.getNextElement with
  | error e => simp [hnext, orStop] at hp
  | ok r =>
    rw [hnext, orStop] at hp
    cases Except.ok.inj hp
    obtain hn | ⟨hx, hlt, hle⟩ := getNextElement_pos h.file hnext
    · exact hname hn
    · have hlen := congrArg List.length (h.rest.trans h'.rest.symm)
      rw [hx, List.length_drop, List.length_drop] at hlen
      omega

theorem Reads.not_inside {p : Parser} {ts U : List Piece} {tail : Bytes} (h : Reads p ts tail)
    (hU : Rest ts U) : ¬Reads p U tail := by
  intro h'
  obtain ⟨W, hW, rfl⟩ := hU.suffix
  obtain ⟨t, W, rfl⟩ := List.exists_cons_of_ne_nil hW
  have hlen := congrArg List.length (h.rest.symm.trans h'.rest)
  simp only [List.cons_append, render_cons, render_append, Piece.render, List.length_append,
    List.length_cons] at hlen
  omega

/-- A value is consumed exactly when it is typed. -/
theorem consumed_iff {d : Doc} {p : Parser} {ts : List Piece} {tail g : Bytes} (wf : d.WellFormed)
    (he : p.element = (⟨g, .opening, VALUE_TAG⟩ : Piece).element) (h : Reads p (d.body ++ ts) tail) :
    Consumed p ts tail ↔ d.Typed := by
  constructor
  · rintro ⟨v, p', hrun, he', hr'⟩
    have hname : p'.element.name ≠ [] := by rw [he']; decide
    obtain ⟨ht, -⟩ | ⟨hU, hr⟩ | ⟨hq, hb⟩ := settled _ wf he h hrun
    · exact ht
    · exact (Reads.not_inside hr' hU hr).elim
    · exact (Reads.not_past hq hb hname hr').elim
  · intro ht
    obtain ⟨p', hrun, hr, he'⟩ := fromXml_typed wf ht he h
    exact ⟨_, p', hrun, he', hr⟩

theorem consumed_iff_int :
    Consumed ⟨(⟨[], .opening, VALUE_TAG⟩ : Piece).element, none, bytes "<value><int>5</int></value>", 7⟩ [] [] ↔
      (Doc.scalar .int [] (bytes "5") []).Typed :=
  @consumed_iff (.scalar .int [] (bytes "5") []) _ [] _ _
    ⟨by decide, by decide, by decide, fun _ => rfl⟩ rfl ⟨rfl, by decide⟩

/-- A text without a type tag. -/
theorem not_consumed_hi :
    ¬∀ (d : Doc) (p : Parser) (ts : List Piece) (tail g : Bytes), d.WellFormed →
      p.element = (⟨g, .opening, VALUE_TAG⟩ : Piece).element → Reads p (d.body ++ ts) tail →
      Consumed p ts tail := by
  intro h
  let e : Element := (⟨[], .opening, VALUE_TAG⟩ : Piece).element
  obtain ⟨v, p', hrun, he', -⟩ := h (.untyped (bytes "hi")) ⟨e, none, bytes "<value>hi</value>", 7⟩ [] [] []
    (show PlainText (bytes "hi") by decide) rfl ⟨rfl, by decide⟩
  have hread : RpcValue.FromXml ⟨e, none, bytes "<value>hi</value>", 7⟩ =
      .ok (.ofString (bytes "hi"), ⟨{ e with content := bytes "hi" }, none, bytes "<value>hi</value>", 7⟩) := rfl
  cases Except.ok.inj (hrun.symm.trans hread)
  exact absurd he' (by decide)

end Srl
