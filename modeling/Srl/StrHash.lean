import Srl.StrMutators
import Srl.DictionaryStrings

namespace Srl

open Cells Session

namespace Str

/-- The string is the same one. -/
def Same (s s' : Str) : Prop := s' = s

/-- The cached hash is left as it is. -/
def Untouched (s s' : Str) : Prop := s'.hash_value = s.hash_value

/-- The cached hash is gone. -/
def Forgets (_ s' : Str) : Prop := s'.hash_value = 0

/-- The cached hash is gone where anything has changed. -/
def Clean (s s' : Str) : Prop := s'.hash_value = 0 ∨ s' = s

section

variable {α β : Type} {x : Call α} {f : α → Call β}

theorem Same.bind (hx : Within Same x) (hf : ∀ a, Within Same (f a)) : Within Same (x >>= f) :=
  within_bind hx hf fun _ _ _ h h' => h'.trans h

theorem Untouched.bind (hx : Within Untouched x) (hf : ∀ a, Within Untouched (f a)) : Within Untouched (x >>= f) :=
  within_bind hx hf fun _ _ _ h h' => h'.trans h

theorem Clean.bind (hx : Within Clean x) (hf : ∀ a, Within Clean (f a)) : Within Clean (x >>= f) := by
  refine within_bind hx hf fun _ _ _ h h' => ?_
  rcases h' with h' | rfl
  · exact .inl h'
  · exact h

/-- What comes after a resize does not bring the hash back. -/
theorem Forgets.bind (hx : Within Forgets x) (hf : ∀ a, Within Untouched (f a)) : Within Forgets (x >>= f) :=
  within_bind hx hf fun _ _ _ h h' => Eq.trans h' h

theorem Forgets.after (hf : ∀ a, Within Forgets (f a)) : Within Forgets (x >>= f) :=
  within_bind (fun _ _ _ _ => trivial : Within (fun _ _ => True) x) hf fun _ _ _ _ h' => h'

theorem Forgets.clean (hx : Within Forgets x) : Within Clean x := within_mono hx fun _ _ => .inl

theorem Same.clean (hx : Within Same x) : Within Clean x := within_mono hx fun _ _ => .inr

theorem Same.untouched (hx : Within Same x) : Within Untouched x := within_mono hx fun _ _ => congrArg hash_value

end

theorem same_pure {α : Type} (a : α) : Within Same (pure a : Call α) := within_pure (fun s => show Same s s from rfl) a

theorem same_read (i : Nat) : Within Same (read i) := by
  refine within_get fun s => ?_
  split
  next => exact same_pure _
  next => exact within_throw _

theorem untouched_write (i : Nat) (c : UInt8) : Within Untouched (write i c) := by
  intro s b s' hrun
  unfold write at hrun
  rw [get_bind] at hrun
  split at hrun
  next =>
    cases hrun
    rfl
  next => cases hrun

theorem untouched_memcpy (i : Nat) (d : Bytes) : Within Untouched (memcpy i d) := by
  intro s b s' hrun
  unfold memcpy at hrun
  rw [get_bind] at hrun
  split at hrun
  next =>
    cases hrun
    rfl
  next =>
    split at hrun
    next =>
      cases hrun
      rfl
    next => cases hrun

theorem untouched_memmove (j i n : Nat) : Within Untouched (memmove j i n) := by
  intro s b s' hrun
  unfold memmove at hrun
  rw [get_bind] at hrun
  split at hrun
  next =>
    cases hrun
    rfl
  next =>
    split at hrun
    next =>
      cases hrun
      rfl
    next => cases hrun

theorem forgets_resize (fresh : Nat → UInt8) (n : Nat) : Within Forgets (resize fresh n) := by
  intro s b s' hrun
  unfold resize at hrun
  rw [modify_bind, get_bind] at hrun
  split at hrun
  next =>
    dsimp only at hrun
    split at hrun
    next => exact untouched_write _ _ _ _ _ hrun
    next =>
      have htail : ∀ size : Nat, Within Untouched (write n 0 >>= fun _ => modify fun s =>
          { s with array_size := size }) := by
        refine fun size => Untouched.bind (untouched_write _ _) fun _ s b s' hmodify => ?_
        cases hmodify
        rfl
      exact htail _ _ _ _ hrun
  next =>
    cases hrun
    rfl

theorem same_int32Index (i : Nat) : Within Same (int32Index i) :=
  within_ite (fun _ => same_pure _) fun _ => within_throw _

theorem clean_pure {α : Type} (a : α) : Within Clean (pure a : Call α) := Same.clean (same_pure a)

theorem untouched_pure {α : Type} (a : α) : Within Untouched (pure a : Call α) := Same.untouched (same_pure a)

variable (fresh : Nat → UInt8)

theorem forgets_copy (d : Bytes) : Within Forgets (copy fresh d) :=
  Forgets.bind (forgets_resize _ _) fun _ =>
    within_ite (fun _ => Untouched.bind (untouched_memcpy _ _) fun _ => untouched_write _ _) fun _ => untouched_pure _

theorem forgets_append (d : Bytes) : Within Forgets (append fresh d) :=
  within_get fun _ => Forgets.bind (forgets_resize _ _) fun _ =>
    Untouched.bind (Same.untouched (same_int32Index _)) fun _ => Untouched.bind (untouched_memcpy _ _) fun _ =>
      within_get fun _ => untouched_write _ _

theorem forgets_insert (pos : Nat) (d : Bytes) : Within Forgets (insert fresh pos d) :=
  within_get fun _ => Forgets.bind (forgets_resize _ _) fun _ =>
    within_ite (fun _ => Untouched.bind (untouched_memmove _ _ _) fun _ => untouched_memcpy _ _) fun _ =>
      within_ite (fun _ => untouched_memcpy _ _) fun _ =>
        Untouched.bind (untouched_memmove _ _ _) fun _ => untouched_memcpy _ _

theorem forgets_insertChar (pos : Nat) (c : UInt8) : Within Forgets (insertChar fresh pos c) :=
  within_get fun _ => Forgets.bind (forgets_resize _ _) fun _ =>
    within_ite (fun _ => Untouched.bind (untouched_memmove _ _ _) fun _ => untouched_write _ _) fun _ =>
      within_ite (fun _ => untouched_write _ _) fun _ =>
        Untouched.bind (untouched_memmove _ _ _) fun _ => untouched_write _ _

theorem clean_trimBegin : Within Clean (trimBegin fresh) :=
  within_get fun _ => within_ite
    (fun _ => Forgets.clean (Forgets.after fun _ => Forgets.after fun _ => forgets_resize _ _)) fun _ => clean_pure _

theorem clean_trimEnd : Within Clean (trimEnd fresh) :=
  within_get fun _ => within_ite (fun _ => Forgets.clean (Forgets.after fun _ => forgets_resize _ _)) fun _ =>
    clean_pure _

theorem clean_remove (pos len : Nat) : Within Clean (remove fresh pos len) :=
  within_get fun _ => within_ite (fun _ => clean_pure _) fun _ => within_ite
    (fun _ => Forgets.clean (forgets_resize _ _)) fun _ => Forgets.clean (Forgets.after fun _ => forgets_resize _ _)

theorem clean_edit (c : EditOp) : Within Clean (c.call fresh) := by
  cases c with
  | assign d => exact Forgets.clean (forgets_copy fresh d)
  | assignText d => exact Forgets.clean (forgets_copy fresh _)
  | assignChar c => exact Forgets.clean (Forgets.bind (forgets_resize _ _) fun _ => untouched_write _ _)
  | append d => exact Forgets.clean (forgets_append fresh d)
  | plus d => exact within_ite (fun _ => clean_pure _) fun _ => Forgets.clean (forgets_append fresh d)
  | plusText d => exact Forgets.clean (forgets_append fresh _)
  | plusChar c =>
    refine within_ite (fun _ => clean_pure _) fun _ => Forgets.clean (within_get fun _ => ?_)
    exact Forgets.bind (forgets_resize _ _) fun _ => within_get fun _ => untouched_write _ _
  | insert pos d => exact Forgets.clean (forgets_insert fresh pos _)
  | insertChar pos c => exact Forgets.clean (forgets_insertChar fresh pos c)
  | prepend d => exact Forgets.clean (forgets_insert fresh 0 _)
  | prependChar c => exact Forgets.clean (forgets_insertChar fresh 0 c)
  | trim => exact Clean.bind (clean_trimBegin fresh) fun _ => clean_trimEnd fresh
  | trimBegin => exact clean_trimBegin fresh
  | trimEnd => exact clean_trimEnd fresh
  | remove pos len => exact clean_remove fresh pos len
  | truncate n => exact Forgets.clean (forgets_resize fresh n)
  | clear => exact Forgets.clean (forgets_resize fresh 0)
  | reserve n => exact Forgets.clean (Forgets.after fun _ => within_get fun _ => forgets_resize _ _)

theorem same_charLoop (c : UInt8) (fuel i : Nat) : Within Same (charLoop c fuel i) := by
  induction fuel generalizing i with
  | zero => exact within_throw _
  | succ fuel ih =>
    exact Same.bind (same_read i) fun _ => within_ite (fun _ => same_pure _) fun _ =>
      within_ite (fun _ => same_pure _) fun _ => ih _

theorem same_startsAt (needle : Bytes) (i : Nat) : Within Same (startsAt needle i) := by
  induction needle generalizing i with
  | nil => exact same_pure _
  | cons d needle ih => exact Same.bind (same_read i) fun _ => within_ite (fun _ => ih _) fun _ => same_pure _

theorem same_textLoop (needle : Bytes) (fuel i : Nat) : Within Same (textLoop needle fuel i) := by
  induction fuel generalizing i with
  | zero => exact within_throw _
  | succ fuel ih =>
    refine Same.bind (same_startsAt needle i) fun _ => within_ite (fun _ => same_pure _) fun _ => ?_
    exact Same.bind (same_read i) fun _ => within_ite (fun _ => same_pure _) fun _ => ih _

theorem same_find (c : UInt8) (pos : Nat) : Within Same (find c pos) :=
  within_get fun _ => Same.bind (same_charLoop _ _ _) fun _ => same_pure _

theorem same_findText (needle : Bytes) (pos : Nat) : Within Same (findText needle pos) :=
  within_get fun _ => Same.bind (same_textLoop _ _ _) fun _ => same_pure _

section

variable {next : Nat → Call Int} {body : Nat → Nat → Call Unit} (all : Bool) (rounds : Nat) (npos : Int)

theorem clean_eachFound (hnext : ∀ i, Within Same (next i)) (hbody : ∀ k i, Within Clean (body k i)) :
    Within Clean (eachFound next body all rounds npos) := by
  induction rounds generalizing npos with
  | zero => exact within_throw _
  | succ rounds ih =>
    refine within_ite (fun _ => clean_pure _) fun _ => Clean.bind (hbody _ _) fun _ => ?_
    exact within_ite (fun _ => Clean.bind (Same.clean (hnext _)) fun _ => ih _) fun _ => clean_pure _

theorem untouched_eachFound (hnext : ∀ i, Within Same (next i)) (hbody : ∀ k i, Within Untouched (body k i)) :
    Within Untouched (eachFound next body all rounds npos) := by
  induction rounds generalizing npos with
  | zero => exact within_throw _
  | succ rounds ih =>
    refine within_ite (fun _ => untouched_pure _) fun _ => Untouched.bind (hbody _ _) fun _ => ?_
    exact within_ite (fun _ => Untouched.bind (Same.untouched (hnext _)) fun _ => ih _) fun _ => untouched_pure _

end

theorem untouched_caseLoop (f : UInt8 → UInt8) (fuel i : Nat) : Within Untouched (caseLoop f fuel i) := by
  induction fuel generalizing i with
  | zero => exact untouched_pure _
  | succ fuel ih =>
    exact Untouched.bind (Same.untouched (same_read i)) fun _ => Untouched.bind (untouched_write _ _) fun _ => ih _

/-- The new size is the old one only where the replacement is as long as what it replaces. -/
theorem replaceFrom_size {length nsize len : Nat} (hl : length < 2 ^ 32) (hn : nsize < 2 ^ 32) :
    (length + (nsize + 2 ^ 32 - len % 2 ^ 32)) % 2 ^ 32 = length ↔ nsize = len % 2 ^ 32 := by
  omega

/-- A replacement that changes the length resizes, before it moves the rest of the text or afterwards. -/
theorem clean_replaceFrom {len : Nat} {d : Bytes} (pos : Nat) (hzero : d.length % 2 ^ 32 ≠ 0)
    (hlen : d.length % 2 ^ 32 ≠ len % 2 ^ 32) : Within Clean (replaceFrom fresh pos len d) := by
  refine within_get fun s => within_ite (fun _ => clean_pure _) fun _ => Forgets.clean ?_
  have hsize := (replaceFrom_size (Nat.mod_lt s.string_length (by decide))
    (Nat.mod_lt d.length (by decide))).not.mpr hlen
  have htail : ∀ i j : Nat, Within Untouched (memcpy pos (d.take i) >>= fun _ => write j 0) := fun i j =>
    Untouched.bind (untouched_memcpy _ _) fun _ => untouched_write _ _
  dsimp only
  rw [if_pos (Nat.pos_of_ne_zero hzero)]
  refine within_ite (fun hgrows => ?_) fun hgrows => Forgets.after fun _ => ?_
  · refine Forgets.bind (forgets_resize _ _) fun _ => Untouched.bind (untouched_memmove _ _ _) fun _ => ?_
    exact within_ite (fun hshrinks => absurd hgrows (Nat.lt_asymm hshrinks)) fun _ => htail _ _
  · exact within_ite (fun _ => Forgets.bind (forgets_resize _ _) fun _ => htail _ _) fun hshrinks =>
      absurd (Nat.le_antisymm (Nat.le_of_not_lt hgrows) (Nat.le_of_not_lt hshrinks)) hsize

theorem untouched_replaceFrom {len : Nat} {d : Bytes} (pos : Nat)
    (h : d.length % 2 ^ 32 = 0 ∨ d.length % 2 ^ 32 = len % 2 ^ 32) :
    Within Untouched (replaceFrom fresh pos len d) := by
  refine within_get fun s => within_ite (fun _ => untouched_pure _) fun _ => ?_
  have htail : ∀ i j : Nat, Within Untouched (memcpy pos (d.take i) >>= fun _ => write j 0) := fun i j =>
    Untouched.bind (untouched_memcpy _ _) fun _ => untouched_write _ _
  dsimp only
  refine within_ite (fun hpos => ?_) fun _ => htail _ _
  have hlen := h.resolve_left (Nat.ne_of_gt hpos)
  have hsize := (replaceFrom_size (Nat.mod_lt s.string_length (by decide)) (Nat.mod_lt d.length (by decide))).mpr hlen
  rw [hsize]
  refine within_ite (fun hlt => absurd hlt (Nat.lt_irrefl _)) fun _ =>
    Untouched.bind (untouched_memmove _ _ _) fun _ => ?_
  exact within_ite (fun hlt => absurd hlt (Nat.lt_irrefl _)) fun _ => htail _ _

variable (mem : Nat → Nat → UInt8) (rounds : Nat)

theorem forgets_vformat (fmt_length : Nat) (printed : Bytes) : Within Forgets (vformat mem fmt_length printed) :=
  within_ite (fun _ => Forgets.after fun _ => Forgets.after fun _ => within_ite
    (fun _ => Forgets.after fun _ => Forgets.after fun _ => forgets_resize _ _) fun _ => forgets_resize _ _)
    fun _ => forgets_resize _ _

theorem fill_within (c : UInt8) (n : Nat) :
    (0 < n → Within Forgets (fill fresh c n)) ∧ (n = 0 → Within Untouched (fill fresh c n)) := by
  have htail : Within Untouched (get >>= fun s : Str =>
      if s.str.isSome then memcpy 0 (List.replicate s.string_length c) else pure () : Call Unit) :=
    within_get fun _ => within_ite (fun _ => untouched_memcpy _ _) fun _ => untouched_pure _
  refine ⟨fun hn => within_ite (fun _ => Forgets.bind (forgets_resize _ _) fun _ => htail) fun h => absurd hn h, ?_⟩
  rintro rfl
  exact htail

/-- A call that does not write in place forgets the hash where it changes anything. -/
theorem clean_mutate (c : Op) (h : c.inPlace = false) : Within Clean (c.mutate mem rounds) := by
  cases c with
  | edit c => exact clean_edit (mem 0) c
  | resize size => exact Forgets.clean (forgets_resize _ _)
  | fill c len =>
    have hlen : len ≠ 0 := by simpa [Op.inPlace] using h
    exact Forgets.clean ((fill_within (mem 0) c len).1 (Nat.pos_of_ne_zero hlen))
  | toUpper | toLower | replaceChar | index => cases h
  | removeChar c pos all =>
    exact Clean.bind (Same.clean (same_find _ _)) fun _ =>
      clean_eachFound all rounds _ (same_find c) fun k _ => clean_remove (mem k) _ _
  | removeText s pos all | removeString s pos all =>
    exact Clean.bind (Same.clean (same_findText _ _)) fun _ =>
      clean_eachFound all rounds _ (same_findText _) fun k _ => clean_remove (mem k) _ _
  | replaceFrom pos len s =>
    obtain ⟨hzero, hlen⟩ := not_or.mp (of_decide_eq_false h)
    exact clean_replaceFrom (mem 0) pos hzero hlen
  | replaceCharText c s pos all =>
    obtain ⟨hzero, hlen⟩ := not_or.mp (of_decide_eq_false h)
    exact Clean.bind (Same.clean (same_find _ _)) fun _ =>
      clean_eachFound all rounds _ (same_find c) fun k i => clean_replaceFrom (mem k) i hzero hlen
  | replaceText s₁ s₂ pos all =>
    obtain ⟨hzero, hlen⟩ := not_or.mp (of_decide_eq_false h)
    exact Clean.bind (Same.clean (same_findText _ _)) fun _ =>
      clean_eachFound all rounds _ (same_findText _) fun k i => clean_replaceFrom (mem k) i hzero hlen
  | format fmt_length printed => exact Forgets.clean (forgets_vformat mem fmt_length printed)
  | hash => exact clean_pure _

/-- A call that writes in place leaves the hash as it is. -/
theorem untouched_mutate (c : Op) (h : c.inPlace = true) : Within Untouched (c.mutate mem rounds) := by
  cases c with
  | edit | resize | removeChar | removeText | removeString | format | hash => cases h
  | fill c len => exact (fill_within (mem 0) c len).2 (of_decide_eq_true h)
  | toUpper | toLower => exact within_get fun _ => untouched_caseLoop _ _ _
  | replaceChar c₁ c₂ pos all =>
    exact Untouched.bind (Same.untouched (same_find _ _)) fun _ =>
      untouched_eachFound all rounds _ (same_find c₁) fun _ _ => untouched_write _ _
  | index i c => exact untouched_write i c
  | replaceFrom pos len s => exact untouched_replaceFrom (mem 0) pos (of_decide_eq_true h)
  | replaceCharText c s pos all =>
    exact Untouched.bind (Same.untouched (same_find _ _)) fun _ =>
      untouched_eachFound all rounds _ (same_find c) fun k i =>
        untouched_replaceFrom (mem k) i (of_decide_eq_true h)
  | replaceText s₁ s₂ pos all =>
    exact Untouched.bind (Same.untouched (same_findText _ _)) fun _ =>
      untouched_eachFound all rounds _ (same_findText _) fun k i =>
        untouched_replaceFrom (mem k) i (of_decide_eq_true h)

/-- A cached hash is the one of the text. -/
def Current (s : Str) : Prop := s.hash_value = 0 ∨ s.hash_value = s.content.hash

variable {s s' : Str} {h : UInt32}

theorem hash_spec (hs : Current s) (hrun : hash s = (.ok h, s')) : h = s.content.hash ∧ Current s' := by
  unfold hash at hrun
  rw [get_bind] at hrun
  split at hrun
  next hcached =>
    cases hrun
    exact ⟨hs.resolve_left hcached, hs⟩
  next =>
    split at hrun
    next => cases hrun
    next =>
      cases hrun
      exact ⟨rfl, .inr rfl⟩

/-- A call in place is made when no hash is cached, or leaves the text as it is. -/
def Op.Keeps (c : Op) (s : Str) : Prop :=
  c.inPlace = true → s.hash_value = 0 ∨ (c.mutate mem rounds s).2.content = s.content

theorem call_of_ne_hash {c : Op} (hc : c ≠ .hash) :
    c.call mem rounds = (c.mutate mem rounds >>= fun _ => pure none) := by
  cases c with
  | hash => exact absurd rfl hc
  | _ => rfl

theorem current_mutate {c : Op} (hs : Current s) (hkeeps : c.Keeps mem rounds s)
    (hrun : c.mutate mem rounds s = (.ok (), s')) : Current s' := by
  cases hplace : c.inPlace with
  | false =>
    rcases clean_mutate mem rounds c hplace s () s' hrun with hzero | rfl
    · exact .inl hzero
    · exact hs
  | true =>
    have hsame := untouched_mutate mem rounds c hplace s () s' hrun
    rcases hkeeps hplace with hzero | hcontent
    · exact .inl (Eq.trans hsame hzero)
    · rw [hrun] at hcontent
      rcases hs with hzero | hcached
      · exact .inl (Eq.trans hsame hzero)
      · exact .inr (hcontent ▸ Eq.trans hsame hcached)

theorem current_call {c : Op} {r : Option UInt32} (hs : Current s) (hkeeps : c.Keeps mem rounds s)
    (hrun : c.call mem rounds s = (.ok r, s')) : Current s' := by
  by_cases hc : c = .hash
  · subst hc
    cases hh : hash s with
    | mk x s₁ =>
      cases x with
      | ok h =>
        have hcall : Op.hash.call mem rounds s = (.ok (some h), s₁) := bind_ok hh
        rw [hcall] at hrun
        cases hrun
        exact (hash_spec hs hh).2
      | error e =>
        have hcall : Op.hash.call mem rounds s = (.error e, s₁) := bind_error hh
        rw [hcall] at hrun
        cases hrun
  · rw [call_of_ne_hash mem rounds hc] at hrun
    cases hm : c.mutate mem rounds s with
    | mk x s₁ =>
      cases x with
      | ok u =>
        rw [bind_ok hm] at hrun
        cases hrun
        exact current_mutate mem rounds hs hkeeps hm
      | error e =>
        rw [bind_error hm] at hrun
        cases hrun

theorem current_init {init : Init} (hrun : init.call fresh empty = (.ok (), s)) : Current s := by
  have hclean : ∀ {x : Call Unit}, Within Clean x → x empty = (.ok (), s) → Current s := by
    intro x hx hrun
    rcases hx empty () s hrun with hzero | rfl
    · exact .inl hzero
    · exact .inl rfl
  cases init with
  | default | null => exact hclean (clean_pure ()) hrun
  | reserve n => exact hclean (Forgets.clean (Forgets.after fun _ => forgets_resize fresh 0)) hrun
  | text d len => exact hclean (Forgets.clean (forgets_copy fresh _)) hrun
  | copy d => exact hclean (Forgets.clean (forgets_copy fresh d)) hrun
  | join s₁ s₂ =>
    refine hclean (within_ite (fun _ => clean_pure _) fun _ => Forgets.clean ?_) hrun
    exact Forgets.bind (forgets_resize _ _) fun _ => Untouched.bind (untouched_memcpy _ _) fun _ =>
      untouched_memcpy _ _
  | fill c len =>
    by_cases hlen : 0 < len
    · exact hclean (Forgets.clean ((fill_within fresh c len).1 hlen)) hrun
    · exact .inl ((fill_within fresh c len).2 (by omega) empty () s hrun)

/-- A call together with the memory that it may get and the rounds for which its loop is followed. -/
def callMutator (c : Op × (Nat → Nat → UInt8) × Nat) (s : Str) : Except Stop (Option UInt32) × Str :=
  c.1.call c.2.1 c.2.2 s

/-- A string reached by a constructor and calls that all return and keep the hash. -/
def Reached (s : Str) : Prop :=
  ∃ (init : Init) (fresh : Nat → UInt8) (s₀ : Str) (calls : List (Op × (Nat → Nat → UInt8) × Nat)),
    init.call fresh empty = (.ok (), s₀) ∧ (∀ r ∈ (run callMutator calls s₀).1, ∃ a, r = .ok a) ∧
      Always callMutator (fun c s => c.1.Keeps c.2.1 c.2.2 s) calls s₀ ∧ s = (run callMutator calls s₀).2

theorem current_run {calls : List (Op × (Nat → Nat → UInt8) × Nat)} (hs : Current s)
    (hreturns : ∀ r ∈ (run callMutator calls s).1, ∃ a, r = .ok a)
    (hkeeps : Always callMutator (fun c s => c.1.Keeps c.2.1 c.2.2 s) calls s) :
    Current (run callMutator calls s).2 := by
  induction calls generalizing s with
  | nil => exact hs
  | cons c calls ih =>
    obtain ⟨a, ha⟩ := hreturns _ List.mem_cons_self
    have hcall : c.1.call c.2.1 c.2.2 s = (.ok a, (callMutator c s).2) := Prod.ext ha rfl
    exact ih (current_call c.2.1 c.2.2 hs hkeeps.1 hcall) (fun r hr => hreturns r (List.mem_cons_of_mem _ hr)) hkeeps.2

theorem Reached.current (hs : Reached s) : Current s := by
  obtain ⟨init, fresh, s₀, calls, hinit, hreturns, hkeeps, rfl⟩ := hs
  exact current_run (current_init fresh hinit) hreturns hkeeps

/-- Where every call keeps the hash, `hash` answers with that of the text, under which a dictionary looks for
it, and equal texts have equal hashes; a call in place on a cached hash that another text follows makes it
stale. -/
theorem hash_reached (hs : Reached s) :
    (∀ h s', hash s = (.ok h, s') → h = s.content.hash ∧ h.toBitVec.toInt = Hasher.hash s.content) ∧
    (∀ t h h' s' t', Reached t → t.content = s.content → hash s = (.ok h, s') → hash t = (.ok h', t') → h' = h) ∧
    ∀ (c : Op) mem rounds s' h s'', c.inPlace = true → s.hash_value ≠ 0 → c.mutate mem rounds s = (.ok (), s') →
      s'.content.hash ≠ s.content.hash → hash s' = (.ok h, s'') → h ≠ s'.content.hash := by
  have hcur := hs.current
  refine ⟨fun h s' hrun => ?_, fun t h h' s' t' ht hcontent hrun hrun' => ?_, ?_⟩
  · obtain ⟨rfl, -⟩ := hash_spec hcur hrun
    exact ⟨rfl, rfl⟩
  · rw [(hash_spec hcur hrun).1, (hash_spec ht.current hrun').1, hcontent]
  · intro c mem rounds s' h s'' hplace hcached hrun hne hhash
    have hsame : s'.hash_value = s.hash_value := untouched_mutate mem rounds c hplace s () s' hrun
    unfold hash at hhash
    rw [get_bind, if_pos (hsame ▸ hcached)] at hhash
    cases hhash
    rw [hsame, hcur.resolve_left hcached]
    exact hne.symm

/-- `String("ab")`, after `hash()`, `+= "c"`, a second `hash()` and `= "d"`. -/
def madeD : Str :=
  (run callMutator [(.hash, fun _ _ => 7, 0), (.edit (.plusText (bytes "c")), fun _ _ => 7, 0),
    (.hash, fun _ _ => 7, 0),
    (.edit (.assignText (bytes "d")), fun _ _ => 7, 0)] ((Init.text (bytes "ab") 0).call (fun _ => 7) empty).2).2

theorem madeD_reached : Reached madeD := by
  refine ⟨.text (bytes "ab") 0, fun _ => 7, _, _, Prod.ext (by decide +kernel) rfl, ?_, ?_, rfl⟩
  · intro r hr
    have hall : ∀ r ∈ (run callMutator [(.hash, fun _ _ => 7, 0), (.edit (.plusText (bytes "c")), fun _ _ => 7, 0),
        (.hash, fun _ _ => 7, 0), (.edit (.assignText (bytes "d")), fun _ _ => 7, 0)]
        ((Init.text (bytes "ab") 0).call (fun _ => 7) empty).2).1, r.isOk = true := by decide +kernel
    cases r with
    | ok a => exact ⟨a, rfl⟩
    | error e => cases hall _ hr
  · exact ⟨nofun, nofun, nofun, nofun, trivial⟩

theorem hash_reached_assigned : ∃ h s', hash madeD = (.ok h, s') ∧ h = madeD.content.hash :=
  have hrun : (hash madeD).1 = .ok (bytes "d").hash := by decide +kernel
  ⟨_, _, Prod.ext hrun rfl, ((hash_reached madeD_reached).1 _ _ (Prod.ext hrun rfl)).1⟩

/-- `toUpper` leaves the hash of the text in small letters. -/
theorem hash_stale : ¬∀ (init : Init) (fresh : Nat → UInt8) (s : Str) (calls : List (Op × (Nat → Nat → UInt8) × Nat)),
    init.call fresh empty = (.ok (), s) → (∀ r ∈ (run callMutator calls s).1, ∃ a, r = .ok a) →
      ∀ h s', hash (run callMutator calls s).2 = (.ok h, s') → h = (run callMutator calls s).2.content.hash := by
  intro hall
  let s := ((Init.text (bytes "a") 0).call (fun _ => 7) empty).2
  let calls : List (Op × (Nat → Nat → UInt8) × Nat) := [(.hash, fun _ _ => 7, 0), (.toUpper, fun _ _ => 7, 0)]
  have hreturns : ∀ r ∈ (run callMutator calls s).1, ∃ a, r = .ok a := by
    intro r hr
    have hok : ∀ r ∈ (run callMutator calls s).1, r.isOk = true := by decide +kernel
    cases r with
    | ok a => exact ⟨a, rfl⟩
    | error e => cases hok _ hr
  have hrun : (hash (run callMutator calls s).2).1 = .ok (bytes "a").hash := by decide +kernel
  have hhash := hall (.text (bytes "a") 0) (fun _ => 7) s calls (Prod.ext (by decide +kernel) rfl) hreturns _ _
    (Prod.ext hrun rfl)
  revert hhash
  decide +kernel

end Str

end Srl
