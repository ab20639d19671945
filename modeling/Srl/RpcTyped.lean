import Srl.RpcReader

namespace Srl

open Bytes XML XML.Parser

theorem has_hash_iff {m : List (Bytes × RpcValue)} {name : Bytes} :
    KeyedList.has Hasher.hash m (Hasher.hash name) = true ↔
      name.hash ∈ m.map fun x => x.1.hash := by
  simp only [KeyedList.has_iff, hash_eq_iff, List.mem_map]

theorem set_of_fresh {m : List (Bytes × RpcValue)} {name : Bytes} (v : RpcValue)
    (h : name.hash ∉ m.map fun x => x.1.hash) :
    RpcStructValue.set m name v = .ok (m ++ [(name, v)]) := by
  rw [RpcStructValue.set, if_neg (mt has_hash_iff.mp h)]

theorem set_ok {m m' : List (Bytes × RpcValue)} {name : Bytes} {v : RpcValue}
    (h : RpcStructValue.set m name v = .ok m') :
    (name.hash ∉ m.map fun x => x.1.hash) ∧ m' = m ++ [(name, v)] := by
  unfold RpcStructValue.set at h
  split at h
  next => simp at h
  next hn => exact ⟨mt has_hash_iff.mpr hn, (Except.ok.inj h).symm⟩

/-- The dictionary of a struct takes a new member exactly when the list of its bindings does. -/
theorem set_dictionary [Inhabited RpcValue] {d : Dictionary Bytes RpcValue}
    {m : List (Bytes × RpcValue)} (hd : Dictionary.Represents d m) (name : Bytes) (v : RpcValue) :
    (∃ e, d.add name v = some (.error e) ∧ RpcStructValue.set m name v = .error (.dictionary e)) ∨
      ∃ d' m', d.add name v = some (.ok d') ∧ RpcStructValue.set m name v = .ok m' ∧
        Dictionary.Represents d' m' := by
  have hadd := Dictionary.add_spec hd name v
  unfold RpcStructValue.set
  split at hadd
  next hk =>
    left
    exact ⟨_, hadd, by rw [if_pos hk]⟩
  next hk =>
    right
    obtain ⟨d', hrun, hd'⟩ := hadd
    exact ⟨d', _, hrun, by rw [if_neg hk], hd'⟩

namespace Doc

theorem membersBody_cons (s : Slot) (d : Doc) (members : List (Slot × Doc)) :
    membersBody ((s, d) :: members) =
      header s ++ (d.body ++ ⟨s.endGap, .closing, MEMBER_TAG⟩ :: membersBody members) := rfl

mutual

/-- A typed value is read up to its closing tag. -/
theorem readValue_typed {p : Parser} {K : List Piece} {tail g : Bytes} {n : Nat} :
    ∀ d : Doc, d.WellFormed → d.Typed → d.body.length < n →
      p.element = (⟨g, .opening, VALUE_TAG⟩ : Piece).element → Reads p (d.body ++ K) tail →
      ∃ p', readValue n p = .ok (d.meaning, p') ∧ Reads p' K tail ∧ p'.element = closedValue
  | .scalar type g₁ text g₂, ⟨hg₁, htext, hg₂, hmake⟩, _, hf, he, h => by
    obtain ⟨n, rfl⟩ := Nat.exists_eq_succ_of_ne_zero (Nat.ne_zero_of_lt hf)
    obtain ⟨p₁, hp₁, hr₁, he₁⟩ :=
      readValue_tag (n := n) he h (Piece.plain_of_gap hg₁ type.tag_mem) hg₁.not_inked
    obtain ⟨p₂, hp₂, hr₂, he₂⟩ :=
      scalarBranch_spec type.blank he₁ rfl hr₁ (Piece.plain_of_text htext type.tag_mem) hg₂ hmake
    refine ⟨p₂, ?_, hr₂, he₂⟩
    rw [hp₁, readType_scalar type (by rw [he₁]; rfl), hp₂, meaning]
  | .array g₁ g₂ items g₃ g₄ g₅, ⟨hg₁, hg₂, hitems, hg₃, hg₄, hg₅⟩, ht, hf, he, h => by
    obtain ⟨n, rfl⟩ := Nat.exists_eq_succ_of_ne_zero (Nat.ne_zero_of_lt hf)
    simp only [body, List.length_cons, List.length_append] at hf
    simp only [body, List.cons_append, List.append_assoc] at h
    obtain ⟨p₂, hp₂, hr₂⟩ := readValue_array (n := n) he h hg₁ (Piece.plain_of_gap hg₂ (by decide)) rfl
    obtain ⟨p₃, hp₃, hr₃, he₃⟩ := arrayLoop_typed (a := []) items hitems ht
      (show (itemsBody items).length < n by omega) hr₂ (Piece.plain_of_gap hg₃ (by decide)) (by simp)
    obtain ⟨p₄, hp₄, hr₄⟩ :=
      arrayEnd_spec he₃ (Piece.plain_of_gap hg₃ (by decide)) rfl (by simp) hr₃ hg₄
    obtain ⟨p₅, hp₅, hr₅, he₅⟩ := finish_spec (.array (itemsMeaning items)) hr₄ hg₅
    refine ⟨p₅, ?_, hr₅, he₅⟩
    rw [hp₂]
    simp [hp₃, hp₄, hp₅, meaning, bind, Except.bind]
  | .struct g₁ members g₂ g₃, ⟨hg₁, hmembers, hg₂, hg₃⟩, ht, hf, he, h => by
    obtain ⟨n, rfl⟩ := Nat.exists_eq_succ_of_ne_zero (Nat.ne_zero_of_lt hf)
    simp only [body, List.length_cons, List.length_append] at hf
    simp only [body, List.cons_append, List.append_assoc] at h
    obtain ⟨p₁, hp₁, hr₁⟩ := readValue_struct (n := n) he h hg₁
    obtain ⟨p₂, hp₂, hr₂, -⟩ := structLoop_typed (m := []) members hmembers ht.1 (by simpa using ht.2)
      (show (membersBody members).length < n by omega) hr₁ (Piece.plain_of_gap hg₂ (by decide)) (by simp +decide)
    obtain ⟨p₃, hp₃, hr₃, he₃⟩ := finish_spec (.struct (membersMeaning members)) hr₂ hg₃
    refine ⟨p₃, ?_, hr₃, he₃⟩
    rw [hp₁]
    simp [hp₂, hp₃, meaning, bind, Except.bind]

theorem arrayLoop_typed {p : Parser} {t : Piece} {K : List Piece} {tail : Bytes} {n : Nat}
    {a : List RpcValue} :
    ∀ items : List (Bytes × Doc), ItemsWellFormed items → ItemsTyped items →
      (itemsBody items).length < n → Reads p (itemsBody items ++ t :: K) tail → t.Plain →
      (t.form = .opening → t.name ≠ VALUE_TAG) →
      ∃ p', arrayLoop n a p = .ok (a ++ itemsMeaning items, p') ∧ Reads p' K tail ∧
        p'.element = t.element
  | [], _, _, hf, h, ht, hn => by
    obtain ⟨n, rfl⟩ := Nat.exists_eq_succ_of_ne_zero (Nat.ne_zero_of_lt hf)
    obtain ⟨p', hp', hr, he⟩ := arrayLoop_stop (n := n) (a := a) h ht hn
    exact ⟨p', by simpa [itemsMeaning] using hp', hr, he⟩
  | (g, d) :: items, ⟨hg, hd, hitems⟩, ⟨htd, htitems⟩, hf, h, ht, hn => by
    obtain ⟨n, rfl⟩ := Nat.exists_eq_succ_of_ne_zero (Nat.ne_zero_of_lt hf)
    simp only [itemsBody, List.length_cons, List.length_append] at hf
    simp only [itemsBody, List.cons_append, List.append_assoc] at h
    obtain ⟨p₁, hp₁, hr₁, he₁⟩ := arrayLoop_value (n := n) (a := a) h hg
    obtain ⟨p₂, hp₂, hr₂, -⟩ := readValue_typed d hd htd (show d.body.length < n by omega) he₁ hr₁
    obtain ⟨p₃, hp₃, hr₃, he₃⟩ := arrayLoop_typed (a := a ++ [d.meaning]) items hitems htitems
      (show (itemsBody items).length < n by omega) hr₂ ht hn
    refine ⟨p₃, ?_, hr₃, he₃⟩
    simp [hp₁, hp₂, hp₃, itemsMeaning, bind, Except.bind]

theorem structLoop_typed {p : Parser} {t : Piece} {K : List Piece} {tail : Bytes} {n : Nat}
    {m : List (Bytes × RpcValue)} :
    ∀ members : List (Slot × Doc), MembersWellFormed members → MembersTyped members →
      ((m.map fun x => x.1.hash) ++ members.map fun x => x.1.name.hash).Nodup →
      (membersBody members).length < n → Reads p (membersBody members ++ t :: K) tail → t.Plain →
      (t.form = .opening → t.name ≠ MEMBER_TAG) →
      ∃ p', structLoop n m p = .ok (m ++ membersMeaning members, p') ∧ Reads p' K tail ∧
        p'.element = t.element
  | [], _, _, _, hf, h, ht, hn => by
    obtain ⟨n, rfl⟩ := Nat.exists_eq_succ_of_ne_zero (Nat.ne_zero_of_lt hf)
    obtain ⟨p', hp', hr, he⟩ := structLoop_stop (n := n) (m := m) h ht hn
    exact ⟨p', by simpa [membersMeaning] using hp', hr, he⟩
  | (s, d) :: members, ⟨hs, hd, hmembers⟩, ⟨hink, htd, htmembers⟩, hnd, hf, h, ht, hn => by
    obtain ⟨n, rfl⟩ := Nat.exists_eq_succ_of_ne_zero (Nat.ne_zero_of_lt hf)
    simp only [membersBody_cons, header, List.length_cons, List.length_append] at hf
    simp only [membersBody_cons, List.append_assoc, List.cons_append] at h
    have hmember := structLoop_member (n := n) (m := m) h hs
    rw [if_pos hink] at hmember
    obtain ⟨p₁, hp₁, hr₁, he₁⟩ := hmember
    obtain ⟨p₂, hp₂, hr₂, -⟩ := readValue_typed d hd htd (show d.body.length < n by omega) he₁ hr₁
    obtain ⟨p₃, hp₃, hr₃, -⟩ := orStop_next hr₂ (Piece.plain_of_gap hs.endGap (by decide))
    have hset : RpcStructValue.set m s.name d.meaning = .ok (m ++ [(s.name, d.meaning)]) :=
      set_of_fresh d.meaning fun hmem => List.disjoint_of_nodup_append hnd hmem (by simp)
    obtain ⟨p₄, hp₄, hr₄, he₄⟩ := structLoop_typed (m := m ++ [(s.name, d.meaning)]) members
      hmembers htmembers (by simpa using hnd) (show (membersBody members).length < n by omega) hr₃ ht hn
    refine ⟨p₄, ?_, hr₄, he₄⟩
    simp [hp₁, hp₂, hset, hp₃, hp₄, membersMeaning, bind, Except.bind]

end

end Doc

/-- The parser has more characters left than elements. -/
theorem XML.Reads.length_le {p : Parser} {ts : List Piece} {tail : Bytes} (h : Reads p ts tail) :
    ts.length ≤ p.left := by
  have hrender : ∀ us : List Piece, us.length ≤ (render us).length := by
    intro us
    induction us with
    | nil => simp
    | cons u us ih =>
      simp only [render_cons, Piece.render, List.length_append, List.length_cons]
      omega
  have hlen := congrArg List.length h.rest
  simp only [List.length_drop, List.length_append] at hlen
  have := hrender ts
  unfold Parser.left
  omega

/-- `FromXml` reads a typed value, whatever follows it. -/
theorem fromXml_typed {d : Doc} {p : Parser} {ts : List Piece} {tail g : Bytes} (wf : d.WellFormed)
    (ht : d.Typed) (he : p.element = (⟨g, .opening, VALUE_TAG⟩ : Piece).element)
    (h : Reads p (d.body ++ ts) tail) :
    ∃ p', RpcValue.FromXml p = .ok (d.meaning, p') ∧ Reads p' ts tail ∧ p'.element = closedValue := by
  have hlen := h.length_le
  rw [List.length_append] at hlen
  exact Doc.readValue_typed d wf ht (by omega) he h

end Srl
