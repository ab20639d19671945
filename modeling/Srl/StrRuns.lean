import Srl.StrEdits
import Mathlib.Data.List.Infix

namespace Srl

open Cells Session

namespace Str

/-- `String()`. -/
def empty : Str := { str := none, array_size := 0, string_length := 0, min_size := 0, hash_value := 0 }

/-- The constructors; `text` is given at least `len` bytes, and `join` the C strings of two pointers, that
of `NULL` being empty. -/
inductive Init
  | default
  | reserve (n : Nat)
  | null
  | text (s : Bytes) (len : Nat)
  | join (s₁ s₂ : Bytes)
  | copy (s : Bytes)
  | fill (c : UInt8) (len : Nat)

def Init.call (fresh : Nat → UInt8) : Init → Call Unit
  | .default | .null => pure ()
  | .reserve n => do
    modify fun s => { s with min_size := n }
    resize fresh 0
  | .text s len => Str.copy fresh (Bytes.ofText s len)
  | .join s₁ s₂ => do
    let len := (Bytes.cstr s₁).length + (Bytes.cstr s₂).length
    if len = 0 then pure ()
    else
      resize fresh len
      memcpy 0 (Bytes.cstr s₁)
      memcpy (Bytes.cstr s₁).length (Bytes.cstr s₂)
  | .copy s => Str.copy fresh s
  | .fill c len => Str.fill fresh c len

/-- The text that a constructor makes. -/
def Init.onText : Init → Bytes
  | .default | .null | .reserve _ => []
  | .text s len => Bytes.ofText s len
  | .join s₁ s₂ => Bytes.cstr s₁ ++ Bytes.cstr s₂
  | .copy s => s
  | .fill c len => List.replicate len c

/-- The calls that edit a text. A `String` argument is its text, and `assignText`, `plusText`, `insert` and
`prepend` see the C string at a pointer. -/
inductive EditOp
  | assign (s : Bytes)
  | assignText (s : Bytes)
  | assignChar (c : UInt8)
  | append (s : Bytes)
  | plus (s : Bytes)
  | plusText (s : Bytes)
  | plusChar (c : UInt8)
  | insert (pos : Nat) (s : Bytes)
  | insertChar (pos : Nat) (c : UInt8)
  | prepend (s : Bytes)
  | prependChar (c : UInt8)
  | trim
  | trimBegin
  | trimEnd
  | remove (pos len : Nat)
  | truncate (n : Nat)
  | clear
  | reserve (n : Nat)

def EditOp.call (fresh : Nat → UInt8) : EditOp → Call Unit
  | .assign s => Str.copy fresh s
  | .assignText s => Str.copy fresh (Bytes.cstr s)
  | .assignChar c => Str.assignChar fresh c
  | .append s => Str.append fresh s
  | .plus s => Str.plus fresh s
  | .plusText s => Str.append fresh (Bytes.cstr s)
  | .plusChar c => Str.plusChar fresh c
  | .insert pos s => Str.insert fresh pos (Bytes.cstr s)
  | .insertChar pos c => Str.insertChar fresh pos c
  | .prepend s => Str.insert fresh 0 (Bytes.cstr s)
  | .prependChar c => Str.insertChar fresh 0 c
  | .trim => Str.trim fresh
  | .trimBegin => Str.trimBegin fresh
  | .trimEnd => Str.trimEnd fresh
  | .remove pos len => Str.remove fresh pos len
  | .truncate n => Str.truncate fresh n
  | .clear => Str.clear fresh
  | .reserve n => Str.reserve fresh n

/-- The same call on a list of bytes. -/
def EditOp.onText : EditOp → Bytes → Bytes
  | .assign s, _ => s
  | .assignText s, _ => Bytes.cstr s
  | .assignChar c, _ => [c]
  | .append s, l | .plus s, l => l ++ s
  | .plusText s, l => l ++ Bytes.cstr s
  | .plusChar c, l => if c = 0 then l else l ++ [c]
  | .insert pos s, l => l.take pos ++ Bytes.cstr s ++ l.drop pos
  | .insertChar pos c, l => l.take pos ++ [c] ++ l.drop pos
  | .prepend s, l => Bytes.cstr s ++ l
  | .prependChar c, l => [c] ++ l
  | .trim, l => (l.dropWhile blank).rdropWhile blank
  | .trimBegin, l => l.dropWhile blank
  | .trimEnd, l => l.rdropWhile blank
  | .remove pos len, l => l.take pos ++ l.drop (pos + len)
  | .truncate n, l => l.take n
  | .clear, _ => []
  | .reserve _, l => l

/-- The arguments that a caller may give. -/
def EditOp.Valid : EditOp → Bytes → Prop
  | .remove pos len, l => pos ≤ l.length ∧ pos + len < 2 ^ 32
  | .truncate n, l => n ≤ l.length
  | .reserve n, _ => n < 2 ^ 32
  | _, _ => True

/-- The call does not write to `EMPTY`, and moves no terminator that is not there. -/
def EditOp.Safe (s : Str) : EditOp → Prop
  | .append d => s.str.isSome ∨ d ≠ []
  | .plusText d => s.str.isSome ∨ Bytes.cstr d ≠ []
  | .insertChar pos _ => s.str.isSome ∨ 0 < pos
  | .prependChar _ => s.str.isSome
  | .reserve n => n + 16 < 2 ^ 32
  | _ => True

/-- What a string promises about a text. -/
structure Represents (s : Str) (l : Bytes) : Prop where
  content_eq : s.content = l
  length_eq : s.string_length = l.length
  terminator : s.memory[s.string_length]? = some 0
  array_size_eq : s.array_size = s.buffer.length
  room : s.str.isSome → s.string_length + 1 ≤ s.array_size
  empty_iff : s.str = none ↔ s.array_size = 0

variable {s : Str} {l : Bytes}

theorem Holds.represents (h : Holds s l) : Represents s l := by
  by_cases hs : s.str.isSome
  · obtain ⟨r, hr⟩ := h.some_buffer hs
    have hbuf : s.buffer = l ++ 0 :: r := by
      rw [hr]
      rfl
    have hmem : s.memory = l ++ 0 :: r := by
      rw [hr]
      rfl
    have hsize : s.array_size = l.length + 1 + r.length := by
      rw [h.array_size_eq, hbuf, List.length_append, List.length_cons]
      omega
    refine ⟨?_, h.length_eq, ?_, h.array_size_eq, fun _ => by rw [h.length_eq]; omega, ⟨fun he => ?_, fun he => ?_⟩⟩
    · rw [content, hmem, h.length_eq, List.take_left]
    · rw [hmem, h.length_eq, List.getElem?_append_right (Nat.le_refl _), Nat.sub_self]
      rfl
    · rw [he] at hs
      cases hs
    · omega
  · have hnone : s.str = none := by simpa using hs
    obtain ⟨rfl, -⟩ := h.empty_iff.mp hnone
    have hmem : s.memory = [0, 0, 0, 0] := by
      rw [memory, hnone]
      rfl
    refine ⟨?_, h.length_eq, ?_, h.array_size_eq, fun he => absurd he hs, fun _ => ?_, fun _ => hnone⟩
    · rw [content, h.length_eq]
      rfl
    · rw [hmem, h.length_eq]
      rfl
    · rw [h.array_size_eq, buffer, hnone]
      rfl

/-- One call, from a string that stores a text. -/
theorem EditOp.call_spec (c : EditOp) (fresh : Nat → UInt8) (h : Holds s l) (hlen : l.length < 2 ^ 31)
    (hfew : (c.onText l).length < 2 ^ 31) (hvalid : c.Valid l) (hsafe : c.Safe s) :
    ∃ s', c.call fresh s = (.ok (), s') ∧ Holds s' (c.onText l) := by
  cases c with
  | assign d => exact copy_spec fresh h.array_size_eq h.min_lt (room_of_lt hfew)
  | assignText d => exact copy_spec fresh h.array_size_eq h.min_lt (room_of_lt hfew)
  | assignChar c => exact h.assignChar_spec fresh c
  | append d => exact h.append_spec fresh (by simpa [onText] using hfew) hsafe
  | plus d =>
    rw [call, Str.plus, onText]
    split
    next hd =>
      rw [hd, List.append_nil]
      exact ⟨s, rfl, h⟩
    next hd => exact h.append_spec fresh (by simpa [onText] using hfew) (.inr hd)
  | plusText d => exact h.append_spec fresh (by simpa [onText] using hfew) hsafe
  | plusChar c =>
    rw [onText]
    split
    next hc =>
      rw [call, Str.plusChar, if_pos hc]
      exact ⟨s, rfl, h⟩
    next hc =>
      rw [onText, if_neg hc, List.length_append] at hfew
      exact h.plusChar_spec fresh hfew hc
  | insert pos d =>
    refine h.insert_spec fresh pos ?_
    simp only [onText, List.length_append, List.length_take, List.length_drop] at hfew
    omega
  | insertChar pos c =>
    refine h.insertChar_spec fresh ?_ hsafe
    simp only [onText, List.length_append, List.length_take, List.length_drop, List.length_singleton] at hfew
    omega
  | prepend d =>
    refine h.insert_spec fresh 0 ?_
    simp only [onText, List.length_append] at hfew
    omega
  | prependChar c =>
    refine h.insertChar_spec fresh ?_ (.inl hsafe)
    simp only [onText, List.length_append, List.length_singleton] at hfew
    omega
  | trim =>
    obtain ⟨s₁, hs₁, h₁⟩ := h.trimBegin_spec fresh hlen
    have hle := (List.dropWhile_suffix (l := l) blank).length_le
    obtain ⟨s₂, hs₂, h₂⟩ := h₁.trimEnd_spec fresh (by omega)
    refine ⟨s₂, ?_, h₂⟩
    rw [call, Str.trim, bind_ok hs₁]
    exact hs₂
  | trimBegin => exact h.trimBegin_spec fresh hlen
  | trimEnd => exact h.trimEnd_spec fresh hlen
  | remove pos len => exact h.remove_spec fresh (room_of_lt hlen) hvalid.1 hvalid.2
  | truncate n => exact h.truncate_spec fresh (room_of_lt hlen) hvalid
  | clear => exact h.truncate_spec fresh (room_of_lt hlen) (Nat.zero_le _)
  | reserve n => exact h.reserve_spec fresh hlen hsafe

/-- A reserved size that rounds up to no size at all is not safe. -/
def Init.Safe : Init → Prop
  | .reserve n => n + 16 < 2 ^ 32
  | _ => True

theorem empty_holds : Holds empty [] := ⟨rfl, rfl, nofun, ⟨fun _ => ⟨rfl, rfl⟩, fun _ => rfl⟩, by decide⟩

theorem Init.call_spec (c : Init) (fresh : Nat → UInt8) (hfew : c.onText.length < 2 ^ 31) (hsafe : c.Safe) :
    ∃ s, c.call fresh empty = (.ok (), s) ∧ Holds s c.onText := by
  have h := empty_holds
  cases c with
  | default => exact ⟨empty, rfl, h⟩
  | null => exact ⟨empty, rfl, h⟩
  | reserve n => exact @resize_cut { empty with min_size := n } [] fresh rfl hsafe (by decide) List.nil_prefix
  | text d len => exact copy_spec fresh rfl h.min_lt (room_of_lt hfew)
  | copy d => exact copy_spec fresh rfl h.min_lt (room_of_lt hfew)
  | join s₁ s₂ =>
    rw [onText, List.length_append] at hfew
    rw [call, onText]
    by_cases hlen : (Bytes.cstr s₁).length + (Bytes.cstr s₂).length = 0
    · have h₁ : Bytes.cstr s₁ = [] := List.eq_nil_of_length_eq_zero (by omega)
      have h₂ : Bytes.cstr s₂ = [] := List.eq_nil_of_length_eq_zero (by omega)
      rw [if_pos hlen, h₁, h₂]
      exact ⟨empty, rfl, h⟩
    · obtain ⟨g, r, hres, hg, -, hround⟩ := h.resize_grows fresh (Nat.zero_le _) (by omega)
        (.inl (Nat.pos_of_ne_zero hlen))
      have hbuf : [] ++ (g ++ 0 :: r) = g.take (Bytes.cstr s₁).length ++ (g.drop (Bytes.cstr s₁).length ++ 0 :: r) := by
        rw [List.nil_append, ← List.append_assoc, List.take_append_drop]
      have hglen : g.length = (Bytes.cstr s₁).length + (Bytes.cstr s₂).length := hg
      have htake : (g.take (Bytes.cstr s₁).length).length = (Bytes.cstr s₁).length := by
        rw [List.length_take]
        omega
      have hdrop : (g.drop (Bytes.cstr s₁).length).length = (Bytes.cstr s₂).length := by
        rw [List.length_drop]
        omega
      have hfirst : ∀ z : Bytes, overwrite (g.take (Bytes.cstr s₁).length ++ z) 0 (Bytes.cstr s₁) =
          Bytes.cstr s₁ ++ z :=
        fun z => @overwrite_middle _ [] _ z _ 0 rfl htake
      have hsecond : overwrite (Bytes.cstr s₁ ++ (g.drop (Bytes.cstr s₁).length ++ 0 :: r)) (Bytes.cstr s₁).length
          (Bytes.cstr s₂) = (Bytes.cstr s₁ ++ Bytes.cstr s₂) ++ 0 :: r := by
        rw [overwrite_middle rfl hdrop, List.append_assoc]
      rw [if_neg hlen, bind_ok hres, hbuf, bind_ok (memcpy_eq (by simp; omega)), hfirst, memcpy_eq (by simp; omega),
        hsecond]
      refine ⟨_, rfl, .of_resized h.min_lt (.inl (Nat.pos_of_ne_zero hlen)) List.length_append ?_⟩
      rw [← hround]
      simp only [List.length_append, List.length_cons, List.length_nil]
      omega
  | fill c len =>
    rw [onText, List.length_replicate] at hfew
    rw [call, Str.fill, onText]
    by_cases hlen : 0 < len
    · obtain ⟨g, r, hres, hg, -, hround⟩ := h.resize_grows fresh (Nat.zero_le _) (by omega) (.inl hlen)
      have hglen : g.length = len := hg
      have hover : overwrite ([] ++ (g ++ 0 :: r)) 0 (List.replicate len c) = List.replicate len c ++ 0 :: r :=
        @overwrite_middle _ [] g (0 :: r) _ 0 rfl (by simpa using hglen)
      rw [if_pos hlen, bind_ok hres]
      beta_reduce
      rw [get_bind, if_pos (withBuffer_isSome _ _), resized_withBuffer_length,
        memcpy_eq (by simp; omega), hover]
      refine ⟨_, rfl, .of_resized h.min_lt (.inl hlen) (by simp) ?_⟩
      rw [← hround]
      simp only [List.length_append, List.length_cons, List.length_replicate, List.length_nil]
      omega
    · obtain rfl : len = 0 := by omega
      exact ⟨empty, rfl, h⟩

theorem Holds.null_eq (h : Holds s l) (hs : s.str = none) :
    l = [] ∧ s = { str := none, array_size := 0, string_length := 0, min_size := 0, hash_value := s.hash_value } := by
  obtain ⟨rfl, hmin⟩ := h.empty_iff.mp hs
  have hlen := h.length_eq
  have hsize := h.array_size_eq
  rw [buffer, hs] at hsize
  obtain ⟨str, array_size, string_length, min_size, hash_value⟩ := s
  cases hs
  cases hlen
  cases hmin
  cases hsize
  exact ⟨rfl, rfl⟩

theorem append_fault (h : Holds s l) (fresh : Nat → UInt8) (hs : s.str = none) :
    (append fresh [] s).1 = .error .fault := by
  rw [(h.null_eq hs).2]
  rfl

/-- The terminator that `insert` moves on an `EMPTY` string is what `malloc` left there. -/
theorem insertChar_garbage (h : Holds s l) (hs : s.str = none) (c : UInt8) (l' : Bytes) :
    ¬Represents (insertChar (fun _ => 1) 0 c s).2 l' := by
  intro hr
  have hlen : s.string_length = 0 := by
    rw [(h.null_eq hs).2]
  have hresized : s.resized (fun _ => 1) 1 =
      (s.resized (fun _ => 1) 1).withBuffer ((realloc [] (roundup 2 16) fun _ => 1).set 1 0) := by
    rw [(h.null_eq hs).2]
    rfl
  have hbuf : (realloc [] (roundup 2 16) fun _ => (1 : UInt8)).set 1 0 = 1 :: 0 :: List.replicate 14 1 := by decide
  have hover : overwrite (1 :: 0 :: List.replicate 14 1) 1
    (window (1 :: 0 :: List.replicate 14 (1 : UInt8)) 0 (0 + 1)) =
      1 :: 1 :: List.replicate 14 1 := by decide
  have hterm := hr.terminator
  unfold insertChar at hterm
  rw [get_bind, hlen, bind_ok (h.resize_spec _ (by decide)), if_pos rfl, show (0 + 1) % 2 ^ 32 = 1 from rfl, hresized,
    hbuf, bind_ok (memmove_eq (by decide)), hover, write_eq (by decide), resized_withBuffer_length] at hterm
  have hone : (1 : UInt8) = 0 := Option.some.inj hterm
  exact absurd hone (by decide)

theorem reserve_fault (h : Holds s l) (fresh : Nat → UInt8) (hlen : l.length < 2 ^ 31) {n : Nat} (hn : n < 2 ^ 32)
    (hwrap : ¬n + 16 < 2 ^ 32) : (reserve fresh n s).1 = .error .fault := by
  have hzero : roundup (n + 1) 16 = 0 := by
    have hmask := @and_mask ((n + 1 + 16 - 1) % 2 ^ 32) 4 (by decide) (Nat.mod_lt _ (by decide))
    exact hmask.trans (by omega)
  let t : Str := { s with min_size := n, hash_value := 0, string_length := l.length }
  have hrounded : t.rounded l.length = 0 := by
    rw [rounded, if_pos (by show l.length < n; omega)]
    exact hzero
  have hres : resize fresh l.length { s with min_size := n, string_length := l.length } =
      (if t.rounded l.length = t.array_size then write l.length 0
        else do
          set { t with str := some (realloc t.buffer (t.rounded l.length) fresh) }
          write l.length 0
          modify fun s => { s with array_size := t.rounded l.length } : Call Unit) t := by
    unfold resize
    rw [modify_bind, get_bind, if_pos (.inr (by show 0 < n; omega))]
  unfold reserve
  rw [modify_bind, get_bind, h.length_eq, hres, hrounded]
  by_cases hsize : 0 = t.array_size
  · have hbuf : t.buffer = [] := List.eq_nil_of_length_eq_zero (h.array_size_eq.symm.trans hsize.symm)
    rw [if_pos hsize]
    unfold write
    rw [get_bind, hbuf, List.length_nil, if_neg (Nat.not_lt_zero _)]
    rfl
  · have hbuf : realloc t.buffer 0 fresh = [] := List.eq_nil_of_length_eq_zero (length_realloc _ _ _)
    rw [if_neg hsize, hbuf]
    rfl

/-- A call that is not safe ends outside the buffer, or with a string that can represent no text. -/
theorem EditOp.unsafe_fails (c : EditOp) (h : Holds s l) (hlen : l.length < 2 ^ 31) (hvalid : c.Valid l)
    (hnot : ¬c.Safe s) :
    ∃ fresh, ¬((c.call fresh s).1 = .ok () ∧ Represents (c.call fresh s).2 (c.onText l)) := by
  have hnone : ¬s.str.isSome → s.str = none := fun hs => by simpa using hs
  cases c with
  | append d =>
    obtain ⟨hs, hd⟩ := not_or.mp hnot
    refine ⟨fun _ => 0, fun hr => ?_⟩
    rw [call, not_not.mp hd, append_fault h _ (hnone hs)] at hr
    cases hr.1
  | plusText d =>
    obtain ⟨hs, hd⟩ := not_or.mp hnot
    refine ⟨fun _ => 0, fun hr => ?_⟩
    rw [call, not_not.mp hd, append_fault h _ (hnone hs)] at hr
    cases hr.1
  | insertChar pos c =>
    obtain ⟨hs, hpos⟩ := not_or.mp hnot
    obtain rfl : pos = 0 := by omega
    exact ⟨fun _ => 1, fun hr => insertChar_garbage h (hnone hs) c _ hr.2⟩
  | prependChar c => exact ⟨fun _ => 1, fun hr => insertChar_garbage h (hnone hnot) c _ hr.2⟩
  | reserve n =>
    refine ⟨fun _ => 0, fun hr => ?_⟩
    rw [call, reserve_fault h _ hlen hvalid hnot] at hr
    cases hr.1
  | _ => exact absurd trivial hnot

/-- The calls on a string, each with what the memory holds that it may get. -/
def callEdit (c : EditOp × (Nat → UInt8)) (s : Str) : Except Stop Unit × Str := c.1.call c.2 s

def callText (c : EditOp × (Nat → UInt8)) (l : Bytes) : Except Stop Unit × Bytes := (.ok (), c.1.onText l)

/-- Every run of calls that are safe where they are made is the run on the text, and the first call that is
not safe can fail. -/
theorem runEdits_represents {init : Init} (fresh : Nat → UInt8) {calls : List (EditOp × (Nat → UInt8))}
    (hinit : init.Safe) (hvalid : Always callText (fun c l => c.1.Valid l) calls init.onText)
    (hfew : ∀ cs, cs <+: calls → (run callText cs init.onText).2.length < 2 ^ 31) :
    ∃ s, init.call fresh empty = (.ok (), s) ∧ (Always callEdit (fun c s => c.1.Safe s) calls s →
      (run callEdit calls s).1 = (run callText calls init.onText).1 ∧
      Represents (run callEdit calls s).2 (run callText calls init.onText).2 ∧
      ∀ c : EditOp, c.Valid (run callText calls init.onText).2 → ¬c.Safe (run callEdit calls s).2 →
        ∃ fresh, ¬((c.call fresh (run callEdit calls s).2).1 = .ok () ∧
          Represents (c.call fresh (run callEdit calls s).2).2 (c.onText (run callText calls init.onText).2))) := by
  obtain ⟨s, hs, hholds⟩ := init.call_spec fresh (hfew [] List.nil_prefix) hinit
  refine ⟨s, hs, fun hsafe => ?_⟩
  have hstep : ∀ c s l, Holds s l → c.1.Safe s →
      (l.length < 2 ^ 31 ∧ (callText c l).2.length < 2 ^ 31) ∧ c.1.Valid l →
      (callEdit c s).1 = (callText c l).1 ∧ Holds (callEdit c s).2 (callText c l).2 := by
    intro c s l h hsafe hl
    obtain ⟨s', hs', h'⟩ := c.1.call_spec c.2 h hl.1.1 hl.1.2 hl.2 hsafe
    rw [callEdit, hs']
    exact ⟨rfl, h'⟩
  obtain ⟨hanswers, hlast⟩ := run_simulates hstep hholds hsafe ((always_of_prefixes hfew).and hvalid)
  exact ⟨hanswers, hlast.represents, fun c hv hnot =>
    c.unsafe_fails hlast (hfew calls (List.prefix_refl calls)) hv hnot⟩

theorem runEdits_represents_insert :
    (run callEdit [(.insert 1 (bytes "xy"), fun _ => 7), (.remove 0 1, fun _ => 7), (.append (bytes "z"), fun _ => 7)]
      ((Init.text (bytes "ab") 0).call (fun _ => 7) empty).2).2.content = bytes "xybz" := by
  have hfew : ∀ cs ∈ List.inits [(EditOp.insert 1 (bytes "xy"), fun _ : Nat => (7 : UInt8)), (.remove 0 1, fun _ => 7),
      (.append (bytes "z"), fun _ => 7)], (run callText cs (Init.text (bytes "ab") 0).onText).2.length < 2 ^ 31 := by
    decide
  obtain ⟨s, hs, h⟩ := @runEdits_represents (.text (bytes "ab") 0) (fun _ => 7) [(.insert 1 (bytes "xy"), fun _ => 7),
    (.remove 0 1, fun _ => 7), (.append (bytes "z"), fun _ => 7)] trivial
      ⟨trivial, ⟨by decide, by decide⟩, trivial, trivial⟩
    fun cs hcs => hfew cs ((List.mem_inits _ _).mpr hcs)
  rw [hs]
  exact (h ⟨trivial, trivial, .inr (by decide), trivial⟩).2.1.content_eq

/-- A character put in front of an empty string takes the byte behind it for its terminator. -/
theorem not_represents_inserted : ¬∀ (init : Init) (fresh : Nat → UInt8) (calls : List (EditOp × (Nat → UInt8))),
    init.Safe → Always callText (fun c l => c.1.Valid l) calls init.onText →
      (∀ cs, cs <+: calls → (run callText cs init.onText).2.length < 2 ^ 31) →
      ∀ s, init.call fresh empty = (.ok (), s) →
        (run callEdit calls s).1 = (run callText calls init.onText).1 ∧
          Represents (run callEdit calls s).2 (run callText calls init.onText).2 := by
  intro h
  have hfew : ∀ cs ∈ List.inits [(EditOp.insertChar 0 65, fun _ : Nat => (1 : UInt8))],
      (run callText cs Init.default.onText).2.length < 2 ^ 31 := by decide
  have hrep := (h .default (fun _ => 1) [(.insertChar 0 65, fun _ => 1)] trivial ⟨trivial, trivial⟩
    (fun cs hcs => hfew cs ((List.mem_inits _ _).mpr hcs)) empty rfl).2
  exact insertChar_garbage empty_holds rfl 65 _ hrep

end Str

end Srl
