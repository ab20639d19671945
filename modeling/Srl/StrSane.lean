import Srl.StrHash

namespace Srl

open Cells Session

namespace Str

/-- What is allocated: `resize` rounds up to a multiple of 16 in a uint32. -/
structure Allocated (s : Str) : Prop where
  array_size_eq : s.array_size = s.buffer.length
  array_size_le : s.array_size + 16 ≤ 2 ^ 32

/-- What every call that returns leaves, whatever its arguments were. -/
structure Sane (s : Str) : Prop extends Allocated s where
  room : s.str.isSome → s.string_length < s.array_size
  none_iff : s.str = none ↔ s.string_length = 0 ∧ s.min_size = 0

/-- A string that stores a text, of a size that `resize` can ask for. -/
structure Stores (s : Str) (l : Bytes) : Prop extends Holds s l where
  array_size_le : s.array_size + 16 ≤ 2 ^ 32

/-- The call returns, and its string then stores `r`. -/
def Becomes (x : Call Unit) (s : Str) (r : Bytes) : Prop := ∃ s', x s = (.ok (), s') ∧ Stores s' r

/-- A call that returns keeps a string sane. -/
def Keeps (s s' : Str) : Prop := Sane s → Sane s'

variable {s s' : Str} {l : Bytes} {n : Nat} {α β : Type}

theorem roundup_le (n : Nat) : roundup n 16 + 16 ≤ 2 ^ 32 := by
  have hmask := @and_mask ((n + 16 - 1) % 2 ^ 32) 4 (by decide) (Nat.mod_lt _ (by decide))
  have hround : roundup n 16 = (n + 16 - 1) % 2 ^ 32 / 2 ^ 4 * 2 ^ 4 := hmask
  rw [hround]
  omega

theorem Stores.length_lt (h : Stores s l) : l.length + 16 < 2 ^ 32 := by
  by_cases hs : s.str.isSome
  · have hlen := (h.terminated hs).length_le
    have hsize := h.array_size_eq
    have hle := h.array_size_le
    rw [List.length_append, List.length_singleton] at hlen
    omega
  · rw [(h.empty_iff.mp (by simpa using hs)).1]
    decide

theorem Stores.sane (h : Stores s l) : Sane s := by
  refine ⟨⟨h.array_size_eq, h.array_size_le⟩, fun hs => ?_, ?_⟩
  · have hlen := (h.terminated hs).length_le
    rw [List.length_append, List.length_singleton] at hlen
    rw [h.length_eq, h.array_size_eq]
    omega
  · rw [h.empty_iff, h.length_eq, List.length_eq_zero_iff]

theorem Sane.stores (hs : Sane s) (h : Holds s l) : Stores s l := ⟨h, hs.array_size_le⟩

/-- The text that a string stores is one. -/
theorem Holds.inj {l' : Bytes} (h : Holds s l) (h' : Holds s l') : l = l' :=
  h.represents.content_eq.symm.trans h'.represents.content_eq

theorem Stores.becomes {x : Call Unit} (h : Stores s l) (hkeeps : Within Keeps x) {r : Bytes}
    (hspec : ∃ s', x s = (.ok (), s') ∧ Holds s' r) : Becomes x s r := by
  obtain ⟨s', hs', hholds⟩ := hspec
  exact ⟨s', hs', (hkeeps s () s' hs' h.sane).stores hholds⟩

theorem Keeps.bind {x : Call α} {f : α → Call β} (hx : Within Keeps x) (hf : ∀ a, Within Keeps (f a)) :
    Within Keeps (x >>= f) :=
  within_bind hx hf fun _ _ _ h h' hs => h' (h hs)

theorem keeps_same {x : Call α} (hx : Within Same x) : Within Keeps x :=
  within_mono hx fun _ _ h hs => by rwa [h]

theorem keeps_pure (a : α) : Within Keeps (pure a : Call α) := keeps_same (same_pure a)

/-- Other bytes in the buffer. -/
theorem Sane.withBuffer {b : Bytes} (hs : Sane s) (hsome : s.str.isSome) (hb : b.length = s.buffer.length) :
    Sane (s.withBuffer b) := by
  refine ⟨⟨hs.array_size_eq.trans hb.symm, hs.array_size_le⟩, fun _ => hs.room hsome, ⟨nofun, fun hzero => ?_⟩⟩
  have hnone := hs.none_iff.mpr hzero
  rw [hnone] at hsome
  cases hsome

theorem isSome_of_buffer {i : Nat} (h : i < s.buffer.length) : s.str.isSome := by
  unfold buffer at h
  cases hs : s.str with
  | none =>
    rw [hs] at h
    cases h
  | some b => rfl

/-- A store inside the buffer. -/
theorem keeps_store {x : Call Unit} {b : Str → Bytes} {P : Str → Prop} [DecidablePred P]
    (hx : ∀ s, x s = if P s then (.ok (), s.withBuffer (b s)) else (.error .fault, s))
    (hsome : ∀ s, P s → s.str.isSome) (hlen : ∀ s, (b s).length = s.buffer.length) : Within Keeps x := by
  intro s _ s' hrun hs
  rw [hx] at hrun
  split at hrun
  next h =>
    cases hrun
    exact hs.withBuffer (hsome s h) (hlen s)
  next => cases hrun

theorem write_run (i : Nat) (c : UInt8) (s : Str) : write i c s =
    if i < s.buffer.length then (.ok (), s.withBuffer (s.buffer.set i c)) else (.error .fault, s) := by
  unfold write
  rw [get_bind]
  split <;> rfl

theorem keeps_write (i : Nat) (c : UInt8) : Within Keeps (write i c) :=
  keeps_store (write_run i c) (fun _ h => isSome_of_buffer h) fun _ => List.length_set

theorem keeps_memcpy (i : Nat) (d : Bytes) : Within Keeps (memcpy i d) := by
  by_cases hd : d = []
  · rw [hd]
    exact keeps_pure ()
  · refine @keeps_store _ (fun s => overwrite s.buffer i d) (fun s => i + d.length ≤ s.buffer.length) _ (fun s => ?_)
      (fun _ h => isSome_of_buffer (i := i) ?_) fun _ => length_overwrite _ _ _
    · unfold memcpy
      rw [get_bind, if_neg hd]
      split <;> rfl
    · have := List.length_pos_of_ne_nil hd
      omega

theorem keeps_memmove (j i n : Nat) : Within Keeps (memmove j i n) := by
  by_cases hn : n = 0
  · subst hn
    exact keeps_pure ()
  · refine @keeps_store _ (fun s => overwrite s.buffer j (window s.buffer i (i + n)))
      (fun s => max j i + n ≤ s.buffer.length) _ (fun s => ?_) (fun _ h => isSome_of_buffer (i := j) (by omega))
      fun _ => length_overwrite _ _ _
    unfold memmove
    rw [get_bind, if_neg hn]
    split <;> rfl

/-- A resize that returns asks nothing of the fields that say what the string was. -/
theorem resize_sane {fresh : Nat → UInt8} (hs : Allocated s) (hrun : resize fresh n s = (.ok (), s')) :
    Sane s' ∧ s'.string_length = n ∧ s'.min_size = s.min_size := by
  unfold resize at hrun
  rw [modify_bind, get_bind] at hrun
  dsimp only at hrun
  split at hrun
  next hpos =>
    split at hrun
    next hsame =>
      rw [write_run] at hrun
      split at hrun
      next hlt =>
        cases hrun
        have hlt : n < s.buffer.length := hlt
        refine ⟨⟨⟨?_, hs.array_size_le⟩, fun _ => ?_, ⟨nofun, fun hzero => ?_⟩⟩, rfl, rfl⟩
        · show s.array_size = (s.buffer.set n 0).length
          rw [List.length_set, hs.array_size_eq]
        · show n < s.array_size
          rwa [hs.array_size_eq]
        · have hzero : n = 0 ∧ s.min_size = 0 := hzero
          omega
      next => cases hrun
    next hsame =>
      let t : Str := { s with hash_value := 0, string_length := n }
      let u : Str := { t with str := some (realloc s.buffer (t.rounded n) fresh) }
      have hrun : (write n 0 >>= fun _ => modify fun s => { s with array_size := t.rounded n }) u = (.ok (), s') := hrun
      have hsize : t.rounded n + 16 ≤ 2 ^ 32 := roundup_le _
      by_cases hlt : n < u.buffer.length
      · have hlt' : n < t.rounded n := by
          rw [← length_realloc s.buffer (t.rounded n) fresh]
          exact hlt
        rw [bind_ok ((write_run n 0 u).trans (if_pos hlt))] at hrun
        cases hrun
        refine ⟨⟨⟨?_, hsize⟩, fun _ => hlt', ⟨nofun, fun hzero => ?_⟩⟩, rfl, rfl⟩
        · show t.rounded n = ((realloc s.buffer (t.rounded n) fresh).set n 0).length
          rw [List.length_set, length_realloc]
        · have hzero : n = 0 ∧ s.min_size = 0 := hzero
          have hpos : 0 < n ∨ 0 < s.min_size := hpos
          omega
      · rw [bind_error ((write_run n 0 u).trans (if_neg hlt))] at hrun
        cases hrun
  next hpos =>
    cases hrun
    have hpos : ¬(0 < n ∨ 0 < s.min_size) := hpos
    have hzero : n = 0 ∧ s.min_size = 0 := by omega
    exact ⟨⟨⟨rfl, by show 0 + 16 ≤ 2 ^ 32; omega⟩, nofun, ⟨fun _ => hzero, fun _ => rfl⟩⟩, rfl, rfl⟩

theorem Sane.buffer_le (h : Sane s) : s.buffer.length + 16 ≤ 2 ^ 32 := h.array_size_eq ▸ h.array_size_le

theorem Sane.length_lt (h : Sane s) : s.string_length + 16 < 2 ^ 32 := by
  by_cases hs : s.str.isSome
  · have hroom := h.room hs
    have hle := h.array_size_le
    omega
  · rw [(h.none_iff.mp (by simpa using hs)).1]
    decide

theorem memcpy_inv {d : Bytes} {i : Nat} (hd : d ≠ []) (h : memcpy i d s = (.ok (), s')) :
    i + d.length ≤ s.buffer.length := by
  unfold memcpy at h
  rw [get_bind, if_neg hd] at h
  split at h
  next hle => exact hle
  next => cases h

theorem memmove_inv {i j n : Nat} (hn : n ≠ 0) (h : memmove j i n s = (.ok (), s')) :
    max j i + n ≤ s.buffer.length := by
  unfold memmove at h
  rw [get_bind, if_neg hn] at h
  split at h
  next hle => exact hle
  next => cases h

variable (fresh : Nat → UInt8)

theorem keeps_resize (n : Nat) : Within Keeps (resize fresh n) :=
  fun _ _ _ hrun hs => (resize_sane hs.toAllocated hrun).1

theorem keeps_copy (d : Bytes) : Within Keeps (copy fresh d) :=
  Keeps.bind (keeps_resize _ _) fun _ =>
    within_ite (fun _ => Keeps.bind (keeps_memcpy _ _) fun _ => keeps_write _ _) fun _ => keeps_pure _

theorem keeps_append (d : Bytes) : Within Keeps (append fresh d) :=
  within_get fun _ => Keeps.bind (keeps_resize _ _) fun _ =>
    Keeps.bind (keeps_same (same_int32Index _)) fun _ => Keeps.bind (keeps_memcpy _ _) fun _ =>
      within_get fun _ => keeps_write _ _

theorem keeps_plusChar (c : UInt8) : Within Keeps (plusChar fresh c) :=
  within_ite (fun _ => keeps_pure _) fun _ => within_get fun _ => Keeps.bind (keeps_resize _ _) fun _ =>
    within_get fun _ => keeps_write _ _

theorem keeps_insert (pos : Nat) (d : Bytes) : Within Keeps (insert fresh pos d) :=
  within_get fun _ => Keeps.bind (keeps_resize _ _) fun _ =>
    within_ite (fun _ => Keeps.bind (keeps_memmove _ _ _) fun _ => keeps_memcpy _ _) fun _ =>
      within_ite (fun _ => keeps_memcpy _ _) fun _ =>
        Keeps.bind (keeps_memmove _ _ _) fun _ => keeps_memcpy _ _

theorem keeps_insertChar (pos : Nat) (c : UInt8) : Within Keeps (insertChar fresh pos c) :=
  within_get fun _ => Keeps.bind (keeps_resize _ _) fun _ =>
    within_ite (fun _ => Keeps.bind (keeps_memmove _ _ _) fun _ => keeps_write _ _) fun _ =>
      within_ite (fun _ => keeps_write _ _) fun _ =>
        Keeps.bind (keeps_memmove _ _ _) fun _ => keeps_write _ _

theorem same_beginLoop (fuel i : Nat) : Within Same (beginLoop fuel i) := by
  induction fuel generalizing i with
  | zero => exact same_pure _
  | succ fuel ih => exact Same.bind (same_read i) fun _ => within_ite (fun _ => ih _) fun _ => same_pure _

theorem same_endLoop (e : Nat) : Within Same (endLoop e) := by
  induction e with
  | zero => exact same_pure _
  | succ e ih => exact Same.bind (same_read e) fun _ => within_ite (fun _ => ih) fun _ => same_pure _

theorem keeps_trimBegin : Within Keeps (trimBegin fresh) :=
  within_get fun _ => within_ite (fun _ => Keeps.bind (keeps_same (same_beginLoop _ _)) fun _ =>
    Keeps.bind (keeps_memmove _ _ _) fun _ => keeps_resize _ _) fun _ => keeps_pure _

theorem keeps_trimEnd : Within Keeps (trimEnd fresh) :=
  within_get fun _ => within_ite (fun _ => Keeps.bind (keeps_same (same_endLoop _)) fun _ => keeps_resize _ _) fun _ =>
    keeps_pure _

theorem keeps_remove (pos len : Nat) : Within Keeps (remove fresh pos len) :=
  within_get fun _ => within_ite (fun _ => keeps_pure _) fun _ => within_ite (fun _ => keeps_resize _ _) fun _ =>
    Keeps.bind (keeps_memmove _ _ _) fun _ => keeps_resize _ _

/-- `reserve` changes the size it asks for before it resizes. -/
theorem keeps_reserve (n : Nat) : Within Keeps (reserve fresh n) := by
  intro s _ s' hrun hs
  exact (@resize_sane { s with min_size := n } _ _ _ ⟨hs.array_size_eq, hs.array_size_le⟩ hrun).1

theorem keeps_edit (c : EditOp) : Within Keeps (c.call fresh) := by
  cases c with
  | assign d => exact keeps_copy fresh d
  | assignText d => exact keeps_copy fresh _
  | assignChar c => exact Keeps.bind (keeps_resize _ _) fun _ => keeps_write _ _
  | append d => exact keeps_append fresh d
  | plus d => exact within_ite (fun _ => keeps_pure _) fun _ => keeps_append fresh d
  | plusText d => exact keeps_append fresh _
  | plusChar c => exact keeps_plusChar fresh c
  | insert pos d => exact keeps_insert fresh pos _
  | insertChar pos c => exact keeps_insertChar fresh pos c
  | prepend d => exact keeps_insert fresh 0 _
  | prependChar c => exact keeps_insertChar fresh 0 c
  | trim => exact Keeps.bind (keeps_trimBegin fresh) fun _ => keeps_trimEnd fresh
  | trimBegin => exact keeps_trimBegin fresh
  | trimEnd => exact keeps_trimEnd fresh
  | remove pos len => exact keeps_remove fresh pos len
  | truncate n => exact keeps_resize fresh n
  | clear => exact keeps_resize fresh 0
  | reserve n => exact keeps_reserve fresh n

section

variable {next : Nat → Call Int} {body : Nat → Nat → Call Unit} (all : Bool) (rounds : Nat) (npos : Int)

theorem keeps_eachFound (hnext : ∀ i, Within Same (next i)) (hbody : ∀ k i, Within Keeps (body k i)) :
    Within Keeps (eachFound next body all rounds npos) := by
  induction rounds generalizing npos with
  | zero => exact within_throw _
  | succ rounds ih =>
    refine within_ite (fun _ => keeps_pure _) fun _ => Keeps.bind (hbody _ _) fun _ => ?_
    exact within_ite (fun _ => Keeps.bind (keeps_same (hnext _)) fun _ => ih _) fun _ => keeps_pure _

/-- A removal or replacement, from its first search on. -/
theorem keeps_loop (hnext : ∀ i, Within Same (next i)) (hbody : ∀ k i, Within Keeps (body k i)) (pos : Nat) :
    Within Keeps (next pos >>= fun npos => eachFound next body all rounds npos) :=
  Keeps.bind (keeps_same (hnext pos)) fun _ => keeps_eachFound all rounds _ hnext hbody

end

theorem keeps_replaceFrom (pos len : Nat) (d : Bytes) : Within Keeps (replaceFrom fresh pos len d) := by
  refine within_get fun s => within_ite (fun _ => keeps_pure _) fun _ => ?_
  have htail : ∀ i j : Nat, Within Keeps (memcpy pos (d.take i) >>= fun _ => write j 0) := fun i j =>
    Keeps.bind (keeps_memcpy _ _) fun _ => keeps_write _ _
  refine within_ite (fun _ => ?_) fun _ => htail _ _
  refine within_ite (fun _ => Keeps.bind (keeps_resize _ _) fun _ => ?_) fun _ => ?_ <;>
    exact Keeps.bind (keeps_memmove _ _ _) fun _ =>
      within_ite (fun _ => Keeps.bind (keeps_resize _ _) fun _ => htail _ _) fun _ => htail _ _

theorem keeps_caseLoop (f : UInt8 → UInt8) (fuel i : Nat) : Within Keeps (caseLoop f fuel i) := by
  induction fuel generalizing i with
  | zero => exact keeps_pure _
  | succ fuel ih =>
    exact Keeps.bind (keeps_same (same_read i)) fun _ => Keeps.bind (keeps_write _ _) fun _ => ih _

theorem keeps_fill (c : UInt8) (n : Nat) : Within Keeps (fill fresh c n) := by
  have htail : Within Keeps (get >>= fun s : Str =>
      if s.str.isSome then memcpy 0 (List.replicate s.string_length c) else pure () : Call Unit) :=
    within_get fun _ => within_ite (fun _ => keeps_memcpy _ _) fun _ => keeps_pure _
  exact within_ite (fun _ => Keeps.bind (keeps_resize _ _) fun _ => htail) fun _ => htail

variable (mem : Nat → Nat → UInt8) (rounds : Nat)

theorem keeps_vformat (fmt_length : Nat) (printed : Bytes) : Within Keeps (vformat mem fmt_length printed) := by
  refine within_ite (fun _ => Keeps.bind (keeps_resize _ _) fun _ => Keeps.bind (keeps_memcpy _ _) fun _ => ?_)
    fun _ => keeps_resize _ _
  exact within_ite (fun _ => Keeps.bind (keeps_resize _ _) fun _ => Keeps.bind (keeps_memcpy _ _) fun _ =>
    keeps_resize _ _) fun _ => keeps_resize _ _

theorem keeps_mutate (c : Op) : Within Keeps (c.mutate mem rounds) := by
  cases c with
  | edit c => exact keeps_edit (mem 0) c
  | resize size => exact keeps_resize _ _
  | fill c len => exact keeps_fill (mem 0) c len
  | toUpper | toLower => exact within_get fun _ => keeps_caseLoop _ _ _
  | removeChar c pos all => exact keeps_loop all rounds (same_find c) (fun k _ => keeps_remove (mem k) _ _) pos
  | removeText s pos all | removeString s pos all =>
    exact keeps_loop all rounds (same_findText _) (fun k _ => keeps_remove (mem k) _ _) pos
  | replaceFrom pos len s => exact keeps_replaceFrom (mem 0) pos len _
  | replaceChar c₁ c₂ pos all => exact keeps_loop all rounds (same_find c₁) (fun _ _ => keeps_write _ _) pos
  | replaceCharText c s pos all =>
    exact keeps_loop all rounds (same_find c) (fun k _ => keeps_replaceFrom (mem k) _ _ _) pos
  | replaceText s₁ s₂ pos all =>
    exact keeps_loop all rounds (same_findText _) (fun k _ => keeps_replaceFrom (mem k) _ _ _) pos
  | index i c => exact keeps_write i c
  | format fmt_length printed => exact keeps_vformat mem fmt_length printed
  | hash => exact keeps_pure _

theorem empty_stores : Stores empty [] := ⟨empty_holds, by decide⟩

theorem empty_sane : Sane empty := empty_stores.sane

theorem init_sane (init : Init) (hrun : init.call fresh empty = (.ok (), s)) : Sane s := by
  have hkeeps : ∀ {x : Call Unit}, Within Keeps x → x empty = (.ok (), s) → Sane s := fun hx hrun =>
    hx empty () s hrun empty_sane
  cases init with
  | default | null => exact hkeeps (keeps_pure ()) hrun
  | reserve n =>
    exact (@resize_sane { empty with min_size := n } s 0 fresh ⟨rfl, by show 0 + 16 ≤ 2 ^ 32; omega⟩ hrun).1
  | text d len => exact hkeeps (keeps_copy fresh _) hrun
  | copy d => exact hkeeps (keeps_copy fresh d) hrun
  | join s₁ s₂ =>
    refine hkeeps (within_ite (fun _ => keeps_pure _) fun _ => ?_) hrun
    exact Keeps.bind (keeps_resize _ _) fun _ => Keeps.bind (keeps_memcpy _ _) fun _ => keeps_memcpy _ _
  | fill c len => exact hkeeps (keeps_fill fresh c len) hrun

end Str

end Srl
