import Srl.StrRemoveAll
import Srl.StrReplaceFrom

namespace Srl

open Cells Session Occurrences

namespace Str

variable {s s' : Str} {l a b x y v P M S t : Bytes} {next : Nat → Call Int} {body : Nat → Nat → Call Unit} {op : Op}

/-- The calls that replace every `a` by `b`: the one for texts and, where `a` is one character, the one for it. -/
inductive Replaces (a b : Bytes) : Op → Prop
  | text : Replaces a b (.replaceText a b 0 true)
  | char {c : UInt8} (h : a = [c]) : Replaces a b (.replaceCharText c b 0 true)

theorem Replaces.loop (hop : Replaces a b op) (ha : ∀ c ∈ a, c ≠ 0) (hb : ∀ c ∈ b, c ≠ 0) :
    ∃ next, Finds next a ∧ (∀ i, Within Same (next i)) ∧ ∀ mem rounds, op.mutate mem rounds = (next 0 >>= fun npos =>
      eachFound next (fun k npos => replaceFrom (mem k) npos a.length b) true rounds npos) := by
  cases hop with
  | text =>
    refine ⟨findText a, finds_text ha, same_findText a, fun mem rounds => ?_⟩
    rw [Op.mutate, Bytes.cstr_of_ne ha, Bytes.cstr_of_ne hb]
    rfl
  | @char c hc =>
    subst hc
    refine ⟨find c, finds_char (ha c (List.mem_singleton.mpr rfl)), same_find c, fun mem rounds => ?_⟩
    rw [Op.mutate, Bytes.cstr_of_ne hb]
    rfl

theorem puts_replaceFrom (mem : Nat → Nat → UInt8) (ha : a ≠ []) (hb : b ≠ []) :
    Puts (fun k npos => replaceFrom (mem k) npos a.length b) a b := by
  intro k s P v h hfew
  have hpos := List.length_pos_of_ne_nil ha
  have hne : P ++ (a ++ v) ≠ [] := List.ne_nil_of_length_pos (by simp only [List.length_append]; omega)
  exact h.replaceFrom_parts (mem k) hb hne hfew

/-- A replacement that returns has made a text that a string can store. -/
theorem Stores.replaceFrom_fits {fresh : Nat → UInt8} (h : Stores s (P ++ (M ++ S))) (ht : t ≠ []) (hM : M ≠ [])
    (hshort : t.length < 2 ^ 32) (hrun : replaceFrom fresh P.length M.length t s = (.ok (), s')) :
    (P ++ (t ++ S)).length + 16 < 2 ^ 32 := by
  have hpos := List.length_pos_of_ne_nil ht
  have hposM := List.length_pos_of_ne_nil hM
  have hold := h.length_lt
  have hlength := h.length_eq
  simp only [List.length_append] at hold hlength ⊢
  by_contra hlong
  unfold replaceFrom at hrun
  rw [get_bind, hlength, Nat.mod_eq_of_lt hshort, List.take_length] at hrun
  dsimp only at hrun
  rw [if_neg (by omega), if_pos hpos] at hrun
  split at hrun
  next hgrow =>
    obtain ⟨_, s₁, hres, -⟩ := bind_inv hrun
    obtain ⟨hs₁, hn, -⟩ := resize_sane h.sane.toAllocated hres
    have hroom := hs₁.length_lt
    omega
  next hgrow =>
    obtain ⟨_, s₁, hmove, hrun⟩ := bind_inv hrun
    have hs₁ := keeps_memmove _ _ _ s () s₁ hmove h.sane
    rw [if_pos (by omega)] at hrun
    obtain ⟨_, s₂, hres, hrun⟩ := bind_inv hrun
    obtain ⟨hs₂, -, -⟩ := resize_sane hs₁.toAllocated hres
    obtain ⟨_, s₃, hcopy, -⟩ := bind_inv hrun
    have hend := memcpy_inv ht hcopy
    have hroom := hs₂.buffer_le
    by_cases hS : S.length = 0
    · omega
    · have hmoved := memmove_inv (by omega) hmove
      have hroom' := h.sane.buffer_le
      omega

/-- A call keeps the length. -/
def SameLength (s s' : Str) : Prop := s'.string_length = s.string_length

theorem sameLength_of_same {α : Type} {x : Call α} (hx : Within Same x) : Within SameLength x :=
  within_mono hx fun _ _ h => congrArg string_length h

theorem sameLength_pure {α : Type} (a : α) : Within SameLength (pure a : Call α) := sameLength_of_same (same_pure a)

theorem SameLength.bind {α β : Type} {x : Call α} {f : α → Call β} (hx : Within SameLength x)
    (hf : ∀ a, Within SameLength (f a)) : Within SameLength (x >>= f) :=
  within_bind hx hf fun _ _ _ h h' => Eq.trans h' h

theorem sameLength_eachFound (hnext : ∀ i, Within Same (next i))
    (hbody : ∀ k i, Within SameLength (body k i)) (all : Bool)
    (rounds : Nat) (npos : Int) : Within SameLength (eachFound next body all rounds npos) := by
  induction rounds generalizing npos with
  | zero => exact within_throw _
  | succ rounds ih =>
    refine within_ite (fun _ => sameLength_pure _) fun _ => SameLength.bind (hbody _ _) fun _ => ?_
    exact within_ite (fun _ => SameLength.bind (sameLength_of_same (hnext _)) fun _ => ih _) fun _ => sameLength_pure _

/-- A replacement by nothing keeps the length. -/
theorem sameLength_replaceFrom_nil (fresh : Nat → UInt8) (pos len : Nat) :
    Within SameLength (replaceFrom fresh pos len []) := by
  refine within_get fun s => within_ite (fun _ => sameLength_pure _) fun _ => ?_
  refine within_ite (fun hpos => absurd hpos (Nat.lt_irrefl 0)) fun _ => ?_
  intro s b s' hrun
  obtain ⟨_, s₁, hcopy, hrun⟩ := bind_inv hrun
  cases hcopy
  rw [write_run] at hrun
  split at hrun
  next =>
    cases hrun
    rfl
  next => cases hrun

section

variable (hnext : Finds next a) (hbody : Puts body a (x ++ (a ++ y)))
  (hfits : ∀ k s P v s', Stores s (P ++ (a ++ v)) → body k P.length s = (.ok (), s') →
    (P ++ ((x ++ (a ++ y)) ++ v)).length + 16 < 2 ^ 32)
  (hclear : Clear a x (a ++ y)) (hb : ∀ c ∈ x ++ (a ++ y), c ≠ 0)

include hnext hbody hfits hclear hb

/-- One round, where what is put in has an `a` behind `x`: that is what the next search finds. -/
theorem eachFound_again {rounds : Nat} (h : Stores s (P ++ (a ++ v))) (hl : ∀ c ∈ P ++ (a ++ v), c ≠ 0)
    (hnow : P.length < 2 ^ 31)
    (hrun : eachFound next body true (rounds + 1) (position (some P.length)) s = (.ok (), s')) :
    ∃ s₁, Stores s₁ ((P ++ x) ++ (a ++ (y ++ v))) ∧ (∀ c ∈ (P ++ x) ++ (a ++ (y ++ v)), c ≠ 0) ∧
      eachFound next body true rounds (position (some (P ++ x).length)) s₁ = (.ok (), s') := by
  rw [eachFound, position_of_lt hnow, if_neg (by omega), Int.toNat_natCast] at hrun
  obtain ⟨_, s₁, hput, hrun⟩ := bind_inv hrun
  obtain ⟨s₂, hs₂, hr⟩ := hbody rounds s P v h (hfits rounds s P v s₁ h hput)
  rw [hput] at hs₂
  cases hs₂
  have hnul := clean_splice hl hb
  have hfound := hnext s₁ _ P.length hr.toHolds.shows hnul (by rw [List.length_append]; omega)
  have hagain : firstAt a ((x ++ (a ++ y)) ++ v) = some x.length := by
    rw [List.append_assoc, List.append_assoc]
    exact firstAt_of_clear hclear.extend
  rw [List.drop_left, hagain, Option.map_some, ← List.length_append] at hfound
  rw [if_pos rfl, bind_ok hfound] at hrun
  have htext : P ++ ((x ++ (a ++ y)) ++ v) = (P ++ x) ++ (a ++ (y ++ v)) := by simp only [List.append_assoc]
  rw [htext] at hr hnul
  exact ⟨s₁, hr, hnul, hrun⟩

/-- A run from there on: as many `x` as rounds have passed stand in front of the `a` that was found last, and the loop
ends when the number of that is no `int32` any more. -/
theorem eachFound_inside (rounds : Nat) :
    ∀ (n : Nat) (Y : Bytes) (s s' : Str), Stores s ((P ++ (List.replicate n x).flatten) ++ (a ++ Y)) →
      (∀ c ∈ (P ++ (List.replicate n x).flatten) ++ (a ++ Y), c ≠ 0) →
      eachFound next body true rounds (position (some (P ++ (List.replicate n x).flatten).length)) s = (.ok (), s') →
      ∃ m Y', Stores s' ((P ++ (List.replicate m x).flatten) ++ (a ++ Y')) ∧
        2 ^ 31 ≤ (P ++ (List.replicate m x).flatten).length := by
  induction rounds with
  | zero =>
    intro n Y s s' _ _ hrun
    cases hrun
  | succ rounds ih =>
    intro n Y s s' h hl hrun
    have hlen := h.length_lt
    rw [List.length_append] at hlen
    obtain hnow | hfar := Nat.lt_or_ge (P ++ (List.replicate n x).flatten).length (2 ^ 31)
    · obtain ⟨s₁, hr, hnul, hrest⟩ := eachFound_again hnext hbody hfits hclear hb h hl hnow hrun
      have hmore : P ++ (List.replicate (n + 1) x).flatten = (P ++ (List.replicate n x).flatten) ++ x := by
        rw [List.replicate_succ', List.flatten_append, List.flatten_singleton, List.append_assoc]
      rw [← hmore] at hr hnul hrest
      exact ih (n + 1) (y ++ Y) s₁ s' hr hnul hrest
    · rw [eachFound, if_pos ((position_neg (by omega)).mpr hfar)] at hrun
      cases hrun
      exact ⟨n, Y, h, hfar⟩

end

section

variable (mem : Nat → Nat → UInt8) (h : Stores s l) (hl : ∀ c ∈ l, c ≠ 0) (ha : ∀ c ∈ a, c ≠ 0) (hb : ∀ c ∈ b, c ≠ 0)
  (hne : a ≠ []) (hop : Replaces a b op)

include h hl ha hb hne hop

theorem replace_apart (hapart : Apart a b (cuts a l)) {rounds : Nat} (hrounds : l.length < rounds) :
    Becomes (op.mutate mem rounds) s (b.intercalate (cuts a l)) ↔ (a <:+: l → b ≠ [] ∧
      (b.intercalate (cuts a l)).length + 16 < 2 ^ 32 ∧ (b.intercalate (cuts a l).dropLast).length < 2 ^ 31) := by
  obtain ⟨next, hnext, hsame, hcall⟩ := hop.loop ha hb
  rw [hcall mem rounds]
  have hfind := hnext s l 0 h.toHolds.shows hl (Nat.zero_le _)
  rw [List.drop_zero] at hfind
  by_cases hin : a <:+: l
  · by_cases hnil : b = []
    · refine ⟨fun ⟨s', hs', hr⟩ => ?_, fun hcond => absurd hnil (hcond hin).1⟩
      subst hnil
      have hkept : SameLength s s' := by
        refine SameLength.bind (sameLength_of_same (hsame 0)) (fun npos => ?_) s () s' hs'
        exact sameLength_eachFound hsame (fun k i => sameLength_replaceFrom_nil (mem k) i _) true rounds npos
      have hshort := @length_intercalate_lt _ _ a l [] (List.length_pos_of_ne_nil hne) hin
      have hlen := hr.length_eq.symm.trans (hkept.trans h.length_eq)
      omega
    · have hloop := fun hfew => @loop_cuts s l a b next _ 0 rounds hnext (puts_replaceFrom mem hne hnil) hne hb h hl
        (Nat.zero_le _) (by rwa [List.drop_zero]) hfew hrounds
      rw [List.take_zero, List.drop_zero, List.nil_append, List.nil_append] at hloop
      constructor
      · rintro ⟨s', hs', hr⟩ -
        exact ⟨hnil, hr.length_lt, (hloop hr.length_lt).mp ⟨s', hs', hr⟩ hin⟩
      · intro hcond
        obtain ⟨-, hfew, hlast⟩ := hcond hin
        exact (hloop hfew).mpr fun _ => hlast
  · obtain ⟨rounds, rfl⟩ := Nat.exists_eq_succ_of_ne_zero (Nat.ne_of_gt (Nat.lt_of_le_of_lt (Nat.zero_le _) hrounds))
    rw [cuts_none hin, List.intercalate_singleton, Becomes, bind_ok hfind, firstAt_eq_none_iff.mpr hin]
    exact ⟨fun _ hin' => absurd hin' hin, fun _ => ⟨s, rfl, h⟩⟩

theorem replace_inside {i j : Nat} (hi : firstAt a l = some i) (hj : firstAt a b = some j) (hsmall : i + j < 2 ^ 31)
    (rounds : Nat) : ¬Becomes (op.mutate mem rounds) s (b.intercalate (cuts a l)) := by
  rintro ⟨s', hs', hr⟩
  obtain ⟨next, hnext, -, hcall⟩ := hop.loop ha hb
  obtain ⟨u, v, rfl, rfl⟩ := firstAt_split hi
  obtain ⟨x, y, rfl, rfl⟩ := firstAt_split hj
  have hclear := clear_of_firstAt hj
  have hbne : x ++ (a ++ y) ≠ [] := fun he => hne (List.append_eq_nil_iff.mp (List.append_eq_nil_iff.mp he).2).1
  have hfew := hr.length_lt
  rw [cuts_clear hne (clear_of_firstAt hi), List.intercalate_cons_of_ne_nil (cuts_ne_nil hne v)] at hr hfew
  simp only [List.length_append] at hfew
  have hfits : ∀ k s P v s', Stores s (P ++ (a ++ v)) →
      replaceFrom (mem k) P.length a.length (x ++ (a ++ y)) s = (.ok (), s') →
        (P ++ ((x ++ (a ++ y)) ++ v)).length + 16 < 2 ^ 32 := fun k s P v s' hs hrun =>
    hs.replaceFrom_fits hbne hne (by simp only [List.length_append]; omega) hrun
  have hbody := puts_replaceFrom mem hne hbne
  have hfind := hnext s _ 0 h.toHolds.shows hl (Nat.zero_le _)
  rw [List.drop_zero, hi, Option.map_some, Nat.zero_add] at hfind
  rw [hcall mem rounds, bind_ok hfind] at hs'
  have hnil : u ++ (List.replicate 0 x).flatten = u := by rw [List.replicate_zero, List.flatten_nil, List.append_nil]
  obtain ⟨m, Y, hlast, hfar⟩ := @eachFound_inside _ _ _ u _ _ hnext hbody hfits hclear hb rounds 0 v s s'
    (by rwa [hnil]) (by rwa [hnil]) (by rwa [hnil])
  have hsame := hlast.toHolds.inj hr.toHolds
  simp only [List.append_assoc] at hsame
  have hsame := List.append_cancel_left hsame
  cases m with
  | zero =>
    rw [hnil] at hfar
    omega
  | succ m =>
    have hmore : (List.replicate (m + 1) x).flatten = (List.replicate m x).flatten ++ x := by
      rw [List.replicate_succ', List.flatten_append, List.flatten_singleton]
    rw [hmore, List.append_assoc] at hsame
    rw [hmore, List.length_append, List.length_append] at hfar
    by_cases hm : m = 0
    · rw [hm, List.replicate_zero, List.flatten_nil, List.length_nil] at hfar
      omega
    · by_cases hx : x = []
      · rw [hx, List.flatten_replicate_nil, List.length_nil] at hfar
        omega
      · exact hclear.power_ne hx hm hsame

/-- Where `a` does not start in a `b` that was put in, the replacements are the textbook's just if `b` is not empty,
the text not too long and the last `a` at an `int32`. Where `b` has an `a` in it they never are. -/
theorem replace_all : (Apart a b (cuts a l) → ∀ rounds, l.length < rounds →
      (Becomes (op.mutate mem rounds) s (b.intercalate (cuts a l)) ↔ (a <:+: l → b ≠ [] ∧
        (b.intercalate (cuts a l)).length + 16 < 2 ^ 32 ∧ (b.intercalate (cuts a l).dropLast).length < 2 ^ 31))) ∧
    ((∃ i j, firstAt a l = some i ∧ firstAt a b = some j ∧ i + j < 2 ^ 31) →
      ∀ rounds, ¬Becomes (op.mutate mem rounds) s (b.intercalate (cuts a l))) :=
  ⟨fun hapart _ hrounds => replace_apart mem h hl ha hb hne hop hapart hrounds,
    fun ⟨_, _, hi, hj, hsmall⟩ => replace_inside mem h hl ha hb hne hop hi hj hsmall⟩

end

theorem replace_all_and : ∃ s s', Stores s (bytes "a-b-c") ∧
    (Op.replaceText (bytes "-") (bytes " and ") 0 true).mutate (fun _ _ => 7) 6 s = (.ok (), s') ∧
      Stores s' (bytes "a and b and c") := by
  obtain ⟨s, -, h⟩ := create_copy (fun _ => 7) empty (by decide : (bytes "a-b-c").length + 16 < 2 ^ 32)
  obtain ⟨s', hs', hr⟩ := ((@replace_all s (bytes "a-b-c") (bytes "-") (bytes " and ") _ (fun _ _ => 7) h (by decide)
    (by decide) (by decide) (by decide) .text).1 (by decide) 6 (by decide)).mpr (by decide)
  exact ⟨s, s', h, hs', hr⟩

/-- A text that stands in its own replacement is found again and again. -/
theorem not_replace_all : ¬∀ (s : Str) (l a b : Bytes) (op : Op) (mem : Nat → Nat → UInt8), Stores s l →
    (∀ c ∈ l, c ≠ 0) → (∀ c ∈ a, c ≠ 0) → (∀ c ∈ b, c ≠ 0) → a ≠ [] → Replaces a b op →
      ∃ rounds, Becomes (op.mutate mem rounds) s (b.intercalate (cuts a l)) := by
  intro hall
  obtain ⟨s, -, h⟩ := create_copy (fun _ => 7) empty (by decide : (bytes "a").length + 16 < 2 ^ 32)
  obtain ⟨rounds, hr⟩ := hall s (bytes "a") (bytes "a") (bytes "aa") _ (fun _ _ => 7) h (by decide) (by decide)
    (by decide) (by decide) .text
  exact replace_inside (fun _ _ => 7) h (by decide) (by decide) (by decide) (by decide) .text
    (i := 0) (j := 0) (by decide) (by decide) (by decide) rounds hr

end Str

end Srl
