import Srl.RpcConsumed
import Srl.RpcRoundTrip
import Srl.XmlEntities

namespace Srl

open Bytes XML XML.Parser

namespace XML.Parser

variable {p p' : Parser} {K : List Piece} {tail g : Bytes} {n : Nat} {m r : List (Bytes × RpcValue)} {v w : RpcValue}

theorem finish_value (h : finish v p = .ok (w, p')) : w = v := by
  obtain ⟨⟨b, q⟩, -, h⟩ := bind_ok h
  cases Except.ok.inj h
  rfl

/-- A loop that returns has taken the members as they stand in the text. -/
theorem structLoop_members_ok {members : List (Slot × Doc)} {t : Piece} (hwf : Doc.MembersWellFormed members)
    (htyped : Doc.MembersTyped members) (hf : (Doc.membersBody members).length < n)
    (h : Reads p (Doc.membersBody members ++ t :: K) tail) (ht : t.Plain)
    (hn : t.form = .opening → t.name ≠ MEMBER_TAG) (hrun : structLoop n m p = .ok (r, p')) :
    r = m ++ Doc.membersMeaning members := by
  induction members generalizing p m n with
  | nil =>
    obtain ⟨n, rfl⟩ := Nat.exists_eq_succ_of_ne_zero (Nat.ne_zero_of_lt hf)
    obtain ⟨q, hq, -⟩ := structLoop_stop (n := n) (m := m) h ht hn
    rw [hq] at hrun
    cases hrun
    exact (List.append_nil _).symm
  | cons member members ih =>
    obtain ⟨s, d⟩ := member
    obtain ⟨n, rfl⟩ := Nat.exists_eq_succ_of_ne_zero (Nat.ne_zero_of_lt hf)
    obtain ⟨hs, hd, hmembers⟩ := hwf
    obtain ⟨hinked, htd, htmembers⟩ := htyped
    simp only [Doc.membersBody_cons, header, List.length_cons, List.length_append] at hf
    simp only [Doc.membersBody_cons, List.append_assoc, List.cons_append] at h
    have hmember := structLoop_member (n := n) (m := m) h hs
    rw [if_pos hinked] at hmember
    obtain ⟨p₁, hp₁, hr₁, he₁⟩ := hmember
    obtain ⟨p₂, hp₂, hr₂, -⟩ := Doc.readValue_typed d hd htd (show d.body.length < n by omega) he₁ hr₁
    obtain ⟨p₃, hp₃, hr₃, -⟩ := orStop_next hr₂ (Piece.plain_of_gap hs.endGap (by decide))
    rw [hp₁, hp₂] at hrun
    obtain ⟨a, ha, hrun⟩ := bind_ok hrun
    cases ha
    obtain ⟨m', hset, hrun⟩ := bind_ok hrun
    obtain ⟨-, rfl⟩ := set_ok hset
    obtain ⟨b, hb, hrun⟩ := bind_ok hrun
    cases hp₃.symm.trans hb
    rw [ih hmembers htmembers (show (Doc.membersBody members).length < n by omega) hr₃ hrun, List.append_assoc]
    rfl

/-- The struct that `FromXml` answers has the names that stand in the text. -/
theorem fromXml_struct_ok {g₁ g₂ g₃ : Bytes} {members : List (Slot × Doc)}
    (hwf : (Doc.struct g₁ members g₂ g₃).WellFormed) (htyped : Doc.MembersTyped members)
    (he : p.element = (⟨g, .opening, VALUE_TAG⟩ : Piece).element)
    (h : Reads p ((Doc.struct g₁ members g₂ g₃).body ++ K) tail) (hrun : RpcValue.FromXml p = .ok (v, p')) :
    v = .struct (Doc.membersMeaning members) := by
  obtain ⟨hg₁, hmembers, hg₂, hg₃⟩ := hwf
  have hlen := h.length_le
  simp only [Doc.body, List.cons_append, List.append_assoc, List.length_cons, List.length_append] at h hlen
  obtain ⟨p₁, hp₁, hr₁⟩ := readValue_struct (n := p.left) he h hg₁
  rw [RpcValue.FromXml, hp₁] at hrun
  obtain ⟨⟨r, q⟩, hloop, hfinish⟩ := bind_ok hrun
  have hr := structLoop_members_ok hmembers htyped (by omega) hr₁ (Piece.plain_of_gap hg₂ (by decide))
    (by simp +decide) hloop
  rw [List.nil_append] at hr
  rw [finish_value hfinish, hr]

end XML.Parser

namespace XML

/-- The characters of a name: printed ASCII, the special ones among them. -/
def NameChar (c : UInt8) : Prop := 32 ≤ c ∧ c ≤ 127

instance (c : UInt8) : Decidable (NameChar c) := inferInstanceAs (Decidable (_ ∧ _))

variable {s : Bytes} {c : UInt8}

theorem encodeChar_length (h : NameChar c) :
    1 ≤ (encodeChar c).length ∧ ((encodeChar c).length = 1 → isSpecial c = false) ∧
      (isspace c = false → Inked (encodeChar c)) := by
  have key : ∀ n < 128, NameChar (UInt8.ofNat n) → 1 ≤ (encodeChar (UInt8.ofNat n)).length ∧
      ((encodeChar (UInt8.ofNat n)).length = 1 → isSpecial (UInt8.ofNat n) = false) ∧
      (isspace (UInt8.ofNat n) = false → Inked (encodeChar (UInt8.ofNat n))) := by decide +kernel
  obtain ⟨n, hn, rfl⟩ := exists_ofNat h.2
  exact key n hn h

theorem length_le_encode (h : ∀ c ∈ s, NameChar c) :
    s.length ≤ (encode s).length ∧ ((encode s).length = s.length → ∀ c ∈ s, isSpecial c = false) := by
  induction s with
  | nil => exact ⟨Nat.le_refl _, fun _ c hc => absurd hc List.not_mem_nil⟩
  | cons c s ih =>
    obtain ⟨hle, hspecial⟩ := ih fun c hc => h c (List.mem_cons_of_mem _ hc)
    obtain ⟨hone, hplain, -⟩ := encodeChar_length (h c List.mem_cons_self)
    rw [encode_cons, List.length_append, List.length_cons]
    refine ⟨by omega, fun hlen d hd => ?_⟩
    rcases List.mem_cons.mp hd with rfl | hd
    · exact hplain (by omega)
    · exact hspecial (by omega) d hd

theorem plainText_encode (s : Bytes) : PlainText (encode s) := by
  intro d hd
  have key : ∀ n < 256, ∀ d ∈ encodeChar (UInt8.ofNat n), d ≠ 60 := by decide +kernel
  obtain ⟨c, -, hc⟩ := List.mem_flatMap.mp hd
  exact ⟨key c.toNat c.toNat_lt d (by rwa [UInt8.ofNat_toNat]), (encode_ne_zero s d hd).1⟩

theorem inked_encode (h : ∀ c ∈ s, NameChar c) (hinked : Inked s) : Inked (encode s) := by
  obtain ⟨c, hc, hspace⟩ := List.any_eq_true.mp hinked
  obtain ⟨d, hd, hspace'⟩ := List.any_eq_true.mp ((encodeChar_length (h c hc)).2.2 (by simpa using hspace))
  exact List.any_eq_true.mpr ⟨d, List.mem_flatMap.mpr ⟨c, hc, hd⟩, hspace'⟩

end XML

namespace RpcValue

/-- A `TypeInt` value with a text that needs no encoding, as that of every `int`. -/
def IsInt (v : RpcValue) : Prop := ∃ str, Clean str ∧ v = .scalar .TypeInt str (.asInt (Bytes.int str 10))

/-- What `FromXml` reads from the text of the value is the value. -/
def Survives (v : RpcValue) : Prop :=
  ∃ xml p p', v.asXml = some xml ∧ (Parser.ofString xml).getNextElement = .ok (true, p) ∧ FromXml p = .ok (v, p')

variable {entries : List (Bytes × RpcValue)}

theorem isInt_ofInt (n : Int32) : IsInt (.ofInt n) := by
  have hint : Bytes.int (Bytes.val n 10) 10 = n := int_val 10 (by decide) n
  exact ⟨_, Clean.val n, by rw [hint]; rfl⟩

theorem IsInt.written {v : RpcValue} (h : IsInt v) : Written v := by
  obtain ⟨str, hclean, rfl⟩ := h
  exact Written.scalar (s := .int) hclean rfl rfl rfl

theorem encode_of_encodedNames (h : encodedNames entries = entries) :
    ∀ x ∈ entries, XML.encode x.1 = x.1 := by
  intro x hx
  have hmap : entries.map (fun x => (XML.encode x.1, x.2)) = entries.map id := h.trans (List.map_id entries).symm
  exact congrArg Prod.fst (List.map_inj_left.mp hmap x hx)

theorem cleanChar_of_name {c : UInt8} (h : NameChar c) (hplain : isSpecial c = false) : CleanChar c := by
  have key : ∀ n < 128, NameChar (UInt8.ofNat n) → isSpecial (UInt8.ofNat n) = false → CleanChar (UInt8.ofNat n) := by
    decide +kernel
  obtain ⟨n, hn, rfl⟩ := exists_ofNat h.2
  exact key n hn h hplain

/-- The names that are read are those that were written, as they stand in the text. -/
theorem names_of_survives (hnames : ∀ x ∈ entries, (∀ c ∈ x.1, NameChar c) ∧ Inked x.1)
    (hwritten : ∀ x ∈ entries, Written x.2) (h : Survives (.struct entries)) : encodedNames entries = entries := by
  obtain ⟨xml, p, p', hxml, hp, hrun⟩ := h
  have hnames' : ∀ x ∈ encodedNames entries, PlainText x.1 ∧ Inked x.1 := by
    intro x hx
    obtain ⟨y, hy, rfl⟩ := List.mem_map.mp hx
    exact ⟨plainText_encode y.1, inked_encode (hnames y hy).1 (hnames y hy).2⟩
  have hwritten' : ∀ x ∈ encodedNames entries, Written x.2 := by
    intro x hx
    obtain ⟨y, hy, rfl⟩ := List.mem_map.mp hx
    exact hwritten y hy
  obtain ⟨hwf, htyped, hmeaning, -⟩ := Written.members hnames' hwritten'
  cases (Written.struct_text hwritten).symm.trans hxml
  have hstart : Reads (Parser.ofString (render (⟨[], .opening, VALUE_TAG⟩ ::
      (RpcValue.struct (encodedNames entries)).toDoc.body) ++ bytes "\n"))
      (⟨[], .opening, VALUE_TAG⟩ :: (RpcValue.struct (encodedNames entries)).toDoc.body) (bytes "\n") := ⟨rfl, rfl⟩
  obtain ⟨q, hq, hr, he⟩ := getNextElement_spec hstart (Piece.plain_of_gap (by decide) (by decide))
  cases hq.symm.trans hp
  rw [← List.append_nil (toDoc _).body] at hr
  have hread := fromXml_struct_ok ⟨by decide, hwf, by decide, by decide⟩ htyped he hr hrun
  rw [hmeaning] at hread
  exact (RpcValue.struct.inj hread).symm

/-- A struct of integers survives just if no name of it has a character that is encoded: names are not decoded. -/
theorem survives_struct_iff (hnames : ∀ x ∈ entries, (∀ c ∈ x.1, NameChar c) ∧ Inked x.1)
    (hvalues : ∀ x ∈ entries, IsInt x.2) (hdistinct : KeyedList.Distinct Hasher.hash entries) :
    Survives (.struct entries) ↔ ∀ x ∈ entries, ∀ c ∈ x.1, isSpecial c = false := by
  have hwritten : ∀ x ∈ entries, Written x.2 := fun x hx => (hvalues x hx).written
  constructor
  · intro hsurvives x hx
    have hsame := encode_of_encodedNames (names_of_survives hnames hwritten hsurvives) x hx
    exact (length_le_encode (hnames x hx).1).2 (congrArg List.length hsame)
  · intro hplain
    have hclean : ∀ x ∈ entries, Clean x.1 := fun x hx =>
      ⟨fun c hc => cleanChar_of_name ((hnames x hx).1 c hc) (hplain x hx c hc), (hnames x hx).2⟩
    obtain ⟨hwf, htyped, hmeaning⟩ :=
      Written.struct_doc (fun x hx => ⟨(hclean x hx).plainText, (hclean x hx).inked⟩) hwritten hdistinct
    have htext := Written.struct_text hwritten
    rw [encodedNames_clean hclean] at htext
    obtain ⟨p, p', hp, hrun, -⟩ := fromXml_text hwf htyped rfl
    rw [hmeaning] at hrun
    exact ⟨_, p, p', htext, hp, hrun⟩

theorem survives_struct_iff_size : Survives (.struct [(bytes "file size", .ofInt 12)]) :=
  (survives_struct_iff (List.forall_mem_singleton.mpr ⟨by decide, by decide⟩)
    (List.forall_mem_singleton.mpr (isInt_ofInt 12)) (List.pairwise_singleton _ _)).mpr
    (List.forall_mem_singleton.mpr (by decide))

/-- A name with an ampersand comes back with its entity. -/
theorem not_survives_struct : ¬∀ entries : List (Bytes × RpcValue),
    (∀ x ∈ entries, (∀ c ∈ x.1, NameChar c) ∧ Inked x.1) → (∀ x ∈ entries, IsInt x.2) →
    KeyedList.Distinct Hasher.hash entries → Survives (.struct entries) := by
  intro hall
  have hnames : ∀ x ∈ [(bytes "a&b", RpcValue.ofInt 12)], (∀ c ∈ x.1, NameChar c) ∧ Inked x.1 :=
    List.forall_mem_singleton.mpr ⟨by decide, by decide⟩
  have hvalues : ∀ x ∈ [(bytes "a&b", RpcValue.ofInt 12)], IsInt x.2 := List.forall_mem_singleton.mpr (isInt_ofInt 12)
  have hdistinct := List.pairwise_singleton (fun x y : Bytes × RpcValue => Hasher.hash x.1 ≠ (Hasher.hash y.1 : Int))
    (bytes "a&b", RpcValue.ofInt 12)
  have hplain := (survives_struct_iff hnames hvalues hdistinct).mp (hall _ hnames hvalues hdistinct)
  exact absurd (hplain _ List.mem_cons_self 38 (by decide)) (by decide)

end RpcValue

end Srl
