import Srl.XmlChunks

namespace Srl

open Bytes

namespace Bytes

theorem length_replaceFrom_nil (s : Bytes) (pos len : Nat) : (s.replaceFrom pos len []).length = s.length := by
  unfold replaceFrom
  split
  next => rfl
  next => simp

theorem length_replaceLoop_nil {str : Bytes} {fuel : Nat} {s t : Bytes} {pos : Nat}
    (h : replaceLoop str [] fuel s pos = some t) : t.length = s.length := by
  induction fuel generalizing s pos with
  | zero => cases h
  | succ fuel ih =>
    rw [replaceLoop] at h
    split at h
    next => rw [ih h, length_replaceFrom_nil]
    next => rw [Option.some.inj h]

theorem length_replaceChar (s : Bytes) (c₁ c₂ : UInt8) : (s.replaceChar c₁ c₂).length = s.length := by
  have hle : (cstr s).length ≤ s.length := (List.takeWhile_prefix _).length_le
  rw [replaceChar, List.length_append, List.length_map, List.length_drop]
  omega

end Bytes

namespace XML

namespace Parser

theorem blankBreaks_length {a b : Bytes} (h : blankBreaks a = .ok b) : b.length = a.length := by
  unfold blankBreaks at h
  split at h
  next s hs =>
    cases h
    rw [length_replaceChar, length_replaceChar, length_replaceLoop_nil hs]
  next => cases h

/-- The exceptions and the endless loop that the attributes of a tag lead to. -/
def BadAttributes : Stop → Prop
  | .InvalidXML message _ => message = "failed to parse tag attributes: '%s'"
  | .endless => True
  | .fault => False

theorem blankBreaks_error {a : Bytes} {s : Stop} (h : blankBreaks a = .error s) : BadAttributes s := by
  unfold blankBreaks at h
  split at h
  next => cases h
  next =>
    cases h
    exact trivial

/-- The end of `parseElement`, when the text of the tag is known. -/
def finishTag (e : Element) : Except Stop Element := do
  let e ← markElement e
  splitAttributes e

theorem parseElement_eq (p : Parser) : parseElement p =
    (closeTag p.pieces p).bind fun p => (finishTag p.element).map fun e => { p with element := e } := by
  unfold parseElement finishTag
  cases closeTag p.pieces p with
  | error s => rfl
  | ok p =>
    show (do
      let e ← markElement p.element
      let e ← splitAttributes e
      Except.ok { p with element := e }) = _
    cases h : markElement p.element with
    | error s => simp [Except.bind, Except.map, bind, h]
    | ok e => cases h' : splitAttributes e <;> simp [Except.bind, Except.map, bind, h, h']

/-- What the caller sees of an element. -/
def seen (e : Element) : Bytes × Bool × Bytes := (e.name, e.is_closing, e.attributes)

/-- No `=` behind the first character: the name is the whole text. -/
def Unsplit (m : Bytes) : Prop := 61 ∉ m ∨ m.head? = some 61

theorem splitAttributes_error {e : Element} {s : Stop} (h : splitAttributes e = .error s) : BadAttributes s := by
  unfold splitAttributes at h
  split at h
  next =>
    split at h
    next =>
      cases h
      rfl
    next pos _ =>
      cases hb : blankBreaks (e.name.substrFrom (pos + 1)) with
      | error s' =>
        rw [hb] at h
        cases h
        exact blankBreaks_error hb
      | ok a =>
        rw [hb] at h
        cases h
  next => cases h

theorem find_zero {m pre post : Bytes} {c : UInt8} (h0 : ∀ x ∈ m, x ≠ 0) (hc : c ≠ 0)
    (hm : m = pre ++ c :: post) (hpre : c ∉ pre) : m.find c 0 = some pre.length := by
  have hfind : m.find c 0 = some (0 + pre.length) :=
    find_eq hm hc fun x hx => ⟨fun he => hpre (he ▸ hx), h0 x (hm ▸ List.mem_append_left _ hx)⟩
  rwa [Nat.zero_add] at hfind

/-- Name and attributes (up to the line breaks in them) of the text `m` of a tag. -/
def CutsTo (m n a : Bytes) : Prop :=
  (n = m ∧ a = [] ∧ Unsplit m) ∨
    ∃ rest, m = n ++ 32 :: rest ∧ 32 ∉ n ∧ a.length = rest.length ∧ ¬Unsplit m

theorem splitAttributes_ok {e e' : Element} (h0 : ∀ c ∈ e.name, c ≠ 0) (ha : e.attributes = [])
    (h : splitAttributes e = .ok e') :
    e'.is_closing = e.is_closing ∧ CutsTo e.name e'.name e'.attributes := by
  by_cases heq : 61 ∈ e.name
  · obtain ⟨pre, post, hname, hpre⟩ := List.eq_append_cons_of_mem heq
    have hfind := find_zero h0 (by decide) hname hpre
    cases pre with
    | nil =>
      simp only [splitAttributes, hfind, List.length_nil] at h
      cases h
      exact ⟨rfl, .inl ⟨rfl, ha, .inr (by rw [hname]; rfl)⟩⟩
    | cons c pre =>
      have hsplit : ¬Unsplit e.name := by
        rintro (hn | hn)
        · exact hn heq
        · rw [hname] at hn
          exact hpre (Option.some.inj hn ▸ List.mem_cons_self)
      simp only [splitAttributes, hfind, List.length_cons] at h
      by_cases hblank : 32 ∈ e.name
      · obtain ⟨n, rest, hn, hfree⟩ := List.eq_append_cons_of_mem hblank
        have hdrop : e.name.drop (0 + n.length + 1) = rest := drop_succ_of_drop hn
        rw [Nat.zero_add] at hdrop
        rw [find_zero h0 (by decide) hn hfree] at h
        dsimp only at h
        rw [substrFrom_eq fun x hx => h0 x (List.mem_of_mem_drop hx), hdrop] at h
        cases hb : blankBreaks rest with
        | error s =>
          rw [hb] at h
          cases h
        | ok a =>
          rw [hb] at h
          cases h
          have htake : e.name.take n.length = n := by rw [hn, List.take_left]
          exact ⟨rfl, .inr ⟨rest, by rw [htake, ← hn], by rw [htake]; exact hfree, blankBreaks_length hb, hsplit⟩⟩
      · have hnone : e.name.find 32 0 = none :=
          find_eq_none (by decide) fun x hx he => hblank (he ▸ List.mem_of_mem_drop hx)
        rw [hnone] at h
        cases h
  · have hfind : e.name.find 61 0 = none :=
      find_eq_none (by decide) fun x hx he => heq (he ▸ List.mem_of_mem_drop hx)
    simp only [splitAttributes, hfind] at h
    cases h
    exact ⟨rfl, .inl ⟨rfl, ha, .inl heq⟩⟩

theorem unsplit_append {m u : Bytes} (hm : ¬Unsplit m) : ¬Unsplit (m ++ u) := by
  simp only [Unsplit, not_or, not_not] at hm ⊢
  refine ⟨List.mem_append_left u hm.1, ?_⟩
  rw [List.head?_append_of_ne_nil m (List.ne_nil_of_mem hm.1)]
  exact hm.2

theorem first_blank {n n' r r' : Bytes} (h : n ++ 32 :: r = n' ++ 32 :: r') (hn : 32 ∉ n) (hn' : 32 ∉ n') :
    n = n' ∧ r = r' := by
  have htake : ∀ m r : Bytes, 32 ∉ m → (m ++ 32 :: r).takeWhile (· ≠ 32) = m := by
    intro m r hm
    rw [List.takeWhile_append_of_pos fun x hx => by simpa using fun he : x = 32 => hm (he ▸ hx)]
    simp
  have hnn : n = n' := by rw [← htake n r hn, h, htake n' r' hn']
  subst hnn
  exact ⟨rfl, (List.cons.inj (List.append_cancel_left h)).2⟩

theorem cutsTo_append {m u n a : Bytes} (hu : u ≠ []) (h : CutsTo m n a) (h' : CutsTo (m ++ u) n a) : False := by
  rcases h with ⟨rfl, rfl, hm⟩ | ⟨rest, rfl, hn, ha, hsplit⟩
  · rcases h' with ⟨he, -, -⟩ | ⟨rest, he, -, ha, hsplit⟩
    · exact hu (List.self_eq_append_right.mp he)
    · obtain rfl : rest = [] := List.eq_nil_of_length_eq_zero ha.symm
      obtain rfl : u = [32] := List.append_cancel_left he
      obtain ⟨hin, hhead⟩ := not_or.mp hsplit
      have hmem : 61 ∈ n := by simpa using hin
      rw [List.head?_append_of_ne_nil n (List.ne_nil_of_mem hmem)] at hhead
      exact hm.elim (· hmem) hhead
  · rcases h' with ⟨-, -, hm'⟩ | ⟨rest', hm', hn', ha', -⟩
    · exact unsplit_append hsplit hm'
    · rw [List.append_assoc, List.cons_append] at hm'
      obtain ⟨-, rfl⟩ := first_blank hm' hn hn'
      rw [List.length_append, ha] at ha'
      have := List.length_pos_of_ne_nil hu
      omega

theorem not_query_prefix (u t : Bytes) : ¬(63 :: u) <+: u ++ 47 :: t := by
  induction u with
  | nil => simp
  | cons x u ih =>
    intro h
    rw [List.cons_append, List.cons_prefix_cons] at h
    obtain ⟨rfl, h⟩ := h
    exact ih h

theorem query_of_cut {u n rest : Bytes} (h : 63 :: u = n ++ 32 :: rest) : ∃ n₁, n = 63 :: n₁ ∧
    u = n₁ ++ 32 :: rest := by
  cases n with
  | nil => cases h
  | cons x n =>
    obtain ⟨rfl, hu⟩ := List.cons_eq_cons.mp h
    exact ⟨n, rfl, hu⟩

/-- A tag that begins with a question mark, with and without a slash at the end. -/
theorem cutsTo_query {u t n a : Bytes} (h : CutsTo (63 :: u) n a) (h' : CutsTo (u ++ 47 :: t) n a) : False := by
  rcases h with ⟨rfl, rfl, -⟩ | ⟨rest, hm, hn, -, -⟩
  · rcases h' with ⟨he, -, -⟩ | ⟨rest, he, -, -, -⟩
    · exact not_query_prefix u t ⟨[], by rw [List.append_nil]; exact he⟩
    · exact not_query_prefix u t ⟨_, he.symm⟩
  · obtain ⟨n, rfl, rfl⟩ := query_of_cut hm
    rcases h' with ⟨he, -, -⟩ | ⟨rest', he, -, -, -⟩
    · exact hn (by simp [he])
    · rw [List.append_assoc, List.cons_append] at he
      have hn₁ : 32 ∉ n := fun hm => hn (List.mem_cons_of_mem _ hm)
      obtain ⟨hnn, -⟩ := first_blank he hn₁ hn
      exact List.cons_ne_self 63 n hnn.symm

theorem cutsTo_query_slash {v t n a : Bytes} (hv : v ≠ []) (h : CutsTo v.dropLast n a)
    (h' : CutsTo (63 :: (v ++ t)) n a) : False := by
  obtain ⟨w, x, rfl⟩ := (List.eq_nil_or_concat v).resolve_left hv
  rw [List.concat_eq_append, List.dropLast_concat] at h
  rw [List.concat_eq_append, List.append_assoc] at h'
  rcases h' with ⟨rfl, -, -⟩ | ⟨rest', hm', hn', -, -⟩
  · rcases h with ⟨he, -, -⟩ | ⟨rest, he, -, -, -⟩
    · have := congrArg List.length he
      simp at this
      omega
    · have := congrArg List.length he
      simp at this
      omega
  · obtain ⟨n, rfl, hw⟩ := query_of_cut hm'
    rcases h with ⟨rfl, -, -⟩ | ⟨rest, rfl, hn, -, -⟩
    · have hget := congrArg (fun s : Bytes => s[n.length]?) hw
      simp only [List.getElem?_append_right (Nat.le_refl n.length), Nat.sub_self,
        List.getElem?_cons_zero] at hget
      rw [List.getElem?_append_left (by simp)] at hget
      exact hn' (List.mem_of_getElem? hget)
    · rw [List.append_assoc, List.cons_append] at hw
      have hn₁ : 32 ∉ n := fun hm => hn' (List.mem_cons_of_mem _ hm)
      obtain ⟨hnn, -⟩ := first_blank hw hn hn₁
      exact List.cons_ne_self 63 n hnn

/-- What `markElement` makes of the text `r`: the name, and whether the tag closes. A question mark
leaves the flag of the element before. -/
def MarksTo (stale : Bool) (r m : Bytes) (c : Bool) : Prop :=
  (r = 47 :: m ∧ c = true) ∨ (r.head? ≠ some 47 ∧ r = m ++ [47] ∧ c = true) ∨
    (∃ x, x ≠ 47 ∧ r = 63 :: (m ++ [x]) ∧ c = stale) ∨
      (r.head? ≠ some 47 ∧ r.head? ≠ some 63 ∧ r = m ∧ c = false)

theorem markElement_ok {e e' : Element} {r : Bytes} (hr : r ≠ []) (h : markElement { e with name := r } = .ok e') :
    MarksTo e.is_closing r e'.name e'.is_closing ∧ e'.attributes = e.attributes := by
  obtain ⟨c, s, rfl⟩ := List.exists_cons_of_ne_nil hr
  unfold markElement at h
  have hhead : charAt (c :: s) 0 = c := rfl
  simp only [hhead] at h
  split at h
  next hc =>
    cases h
    exact ⟨.inl ⟨by rw [hc]; rfl, rfl⟩, rfl⟩
  next hc =>
    have hne : (c :: s).head? ≠ some 47 := fun he => hc (Option.some.inj he)
    split at h
    next hlast =>
      cases h
      refine ⟨.inr (.inl ⟨hne, ?_, rfl⟩), rfl⟩
      exact (List.dropLast_append_getLast? _ hlast).symm
    next hlast =>
      split at h
      next hquery =>
        split at h
        next => cases h
        next hlen =>
          cases h
          have hs : s ≠ [] := fun he => hlen (by rw [he]; rfl)
          refine ⟨.inr (.inr (.inl ⟨s.getLast hs, ?_, ?_, rfl⟩)), rfl⟩
          · intro he
            apply hlast
            rw [List.getLast?_cons_of_ne_nil hs, List.getLast?_eq_some_getLast hs, he]
          · rw [hquery]
            exact congrArg _ (List.dropLast_append_getLast hs).symm
      next hquery =>
        cases h
        exact ⟨.inr (.inr (.inr ⟨hne, fun he => hquery (Option.some.inj he), rfl, rfl⟩)), rfl⟩

theorem markElement_error {e : Element} {r : Bytes} {s : Stop} (h : markElement { e with name := r } = .error s) :
    s = .fault ∧ r.length = 1 := by
  unfold markElement at h
  split at h
  next => cases h
  next =>
    split at h
    next => cases h
    next =>
      split at h
      next =>
        split at h
        next hlen =>
          cases h
          exact ⟨rfl, hlen⟩
        next => cases h
      next => cases h

theorem marksTo_extends {stale c : Bool} {r t m m' n a : Bytes} (ht : t ≠ []) (hr : r ≠ [])
    (h : MarksTo stale r m c) (h' : MarksTo stale (r ++ t) m' c) (hn : CutsTo m n a) (hn' : CutsTo m' n a) :
    False := by
  obtain ⟨u, y, rfl⟩ := (List.eq_nil_or_concat t).resolve_left ht
  rw [List.concat_eq_append] at h'
  have hhead : (r ++ (u ++ [y])).head? = r.head? := List.head?_append_of_ne_nil r hr
  unfold MarksTo at h'
  rw [hhead] at h'
  have hlast : ∀ {w v : Bytes} {x : UInt8}, w ++ (u ++ [y]) = v ++ [x] → v = w ++ u := by
    intro w v x he
    rw [← List.append_assoc] at he
    exact (List.append_inj' he rfl).1.symm
  rcases h with ⟨rfl, rfl⟩ | ⟨hc, rfl, rfl⟩ | ⟨x, hx, rfl, rfl⟩ | ⟨hc, hq, rfl, rfl⟩
  · rcases h' with ⟨he, -⟩ | ⟨hne, -, -⟩ | ⟨x, -, he, -⟩ | ⟨hne, -, -, -⟩
    · obtain rfl := (List.cons.inj he).2
      exact cutsTo_append (by simp) hn hn'
    · exact hne rfl
    · cases he
    · exact hne rfl
  · rcases h' with ⟨he, -⟩ | ⟨-, he, -⟩ | ⟨x, hx, he, rfl⟩ | ⟨-, -, -, hf⟩
    · exact hc (by rw [← hhead, he]; rfl)
    · obtain rfl := hlast he
      rw [List.append_assoc] at hn'
      exact cutsTo_append (by simp) hn hn'
    · obtain _ | ⟨d, m⟩ := m
      · exact hc rfl
      · obtain ⟨rfl, hm⟩ := List.cons.inj he
        obtain rfl := hlast hm
        exact cutsTo_query (t := u) hn (by simpa using hn')
    · cases hf
  · rcases h' with ⟨he, -⟩ | ⟨-, he, -⟩ | ⟨x', hx', he, -⟩ | ⟨-, hq, -, -⟩
    · cases he
    · obtain rfl := hlast he
      exact cutsTo_query_slash (v := m ++ [x]) (by simp) (by rwa [List.dropLast_concat]) hn'
    · obtain rfl := hlast (List.cons.inj he).2
      rw [List.append_assoc] at hn'
      exact cutsTo_append (by simp) hn hn'
    · exact hq rfl
  · rcases h' with ⟨he, -⟩ | ⟨-, -, hf⟩ | ⟨x, -, he, -⟩ | ⟨-, -, he, -⟩
    · exact hc (by rw [← hhead, he]; rfl)
    · cases hf
    · exact hq (by rw [← hhead, he]; rfl)
    · obtain rfl := he
      exact cutsTo_append (by simp) hn hn'

theorem MarksTo.subset {stale c : Bool} {r m : Bytes} (h : MarksTo stale r m c) : ∀ x ∈ m, x ∈ r := by
  intro x hx
  rcases h with ⟨rfl, -⟩ | ⟨-, rfl, -⟩ | ⟨y, -, rfl, -⟩ | ⟨-, -, rfl, -⟩
  · exact List.mem_cons_of_mem _ hx
  · exact List.mem_append_left _ hx
  · exact List.mem_cons_of_mem _ (List.mem_append_left _ hx)
  · exact hx

theorem finishTag_ok {e : Element} {r n a : Bytes} {c : Bool} (h0 : ∀ x ∈ r, x ≠ 0) (hr : r ≠ [])
    (ha : e.attributes = []) (h : (finishTag { e with name := r }).map seen = .ok (n, c, a)) :
    ∃ m, MarksTo e.is_closing r m c ∧ CutsTo m n a := by
  cases hm : markElement { e with name := r } with
  | error s =>
    rw [finishTag, hm] at h
    cases h
  | ok e₁ =>
    rw [finishTag, hm] at h
    cases hs : splitAttributes e₁ with
    | error s =>
      change (splitAttributes e₁).map seen = _ at h
      rw [hs] at h
      cases h
    | ok e₂ =>
      change (splitAttributes e₁).map seen = _ at h
      rw [hs] at h
      cases h
      obtain ⟨hmark, hattr⟩ := markElement_ok hr hm
      obtain ⟨hc, hcut⟩ := splitAttributes_ok (fun x hx => h0 x (hmark.subset x hx)) (hattr.trans ha) hs
      exact ⟨e₁.name, hc ▸ hmark, hcut⟩

theorem finishTag_error {e : Element} {r : Bytes} {s : Stop}
    (h : (finishTag { e with name := r }).map seen = .error s) : BadAttributes s ∨ s = .fault ∧ r.length = 1 := by
  cases hm : markElement { e with name := r } with
  | error s' =>
    rw [finishTag, hm] at h
    cases h
    exact .inr (markElement_error hm)
  | ok e₁ =>
    rw [finishTag, hm] at h
    change (splitAttributes e₁).map seen = _ at h
    cases hs : splitAttributes e₁ with
    | error s' =>
      rw [hs] at h
      cases h
      exact .inl (splitAttributes_error hs)
    | ok e₂ =>
      rw [hs] at h
      cases h

/-- More text gives another element, or another exception, unless the attributes are bad. -/
theorem finishTag_extends {e : Element} {r t : Bytes} {x : Except Stop (Bytes × Bool × Bytes)}
    (h0 : ∀ c ∈ r ++ t, c ≠ 0) (ha : e.attributes = []) (hr : r ≠ []) (ht : t ≠ [])
    (h : (finishTag { e with name := r }).map seen = x) (h' : (finishTag { e with name := r ++ t }).map seen = x) :
    ∃ s, x = .error s ∧ BadAttributes s := by
  cases x with
  | error s =>
    refine ⟨s, rfl, ?_⟩
    rcases finishTag_error h' with hbad | ⟨-, hlen⟩
    · exact hbad
    · have := List.length_pos_of_ne_nil hr
      have := List.length_pos_of_ne_nil ht
      rw [List.length_append] at hlen
      omega
  | ok x =>
    obtain ⟨n, c, a⟩ := x
    obtain ⟨m, hm, hn⟩ := finishTag_ok (fun x hx => h0 x (List.mem_append_left _ hx)) hr ha h
    obtain ⟨m', hm', hn'⟩ := finishTag_ok h0 (by simp [hr]) ha h'
    exact (marksTo_extends ht hr hm hm' hn hn').elim

end Parser

end XML

end Srl
