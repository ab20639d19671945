import Srl.ByteBufferWrites
import Srl.ByteBufferFind
import Mathlib.Data.Nat.Find

namespace Srl

open Cells

/-- What `find` returns, an `int32`; after a search outside of the allocation it is unknown. -/
def Found.position : Found → Option Int
  | hit i => some ((i : Int).bmod (2 ^ 32))
  | missing => some (-1)
  | outside => none

theorem char_eq (c : UInt8) : char c = if c < 128 then (c.toNat : Int) else c.toNat - 256 := by
  obtain ⟨c⟩ := c
  revert c
  decide +kernel

/-- A `byte` and a signed `char` are equal only below 128. -/
theorem char_eq_iff {c d : UInt8} : (c.toNat : Int) = char d ↔ c = d ∧ d < 128 := by
  have hc : c.toNat < 256 := c.toNat_lt
  rw [char_eq, ← UInt8.toNat_inj]
  split
  next hd =>
    rw [Nat.cast_inj]
    exact (and_iff_left hd).symm
  next hd =>
    refine iff_of_false ?_ fun h => hd h.2
    have hd : ¬d.toNat < 128 := hd
    have := d.toNat_lt
    omega

namespace ByteBuffer

variable {b : ByteBuffer} {str : Bytes} {past : Nat → UInt8} {i : Nat}

/-- The text stands in the unread bytes at `i`. -/
def OccursAt (b : ByteBuffer) (str : Bytes) (i : Nat) : Prop :=
  b.pos ≤ i ∧ i + str.length ≤ b.length ∧ window b.buffer i (i + str.length) = str

/-- `find` returns the first index at which the text stands in the unread bytes. -/
def FindsFirst (b : ByteBuffer) (str : Bytes) (past : Nat → UInt8) : Prop :=
  (∃ i : Nat, (b.find (.text str past)).position = some (i : Int) ∧ b.OccursAt str i ∧
      ∀ j, j < i → ¬b.OccursAt str j) ∨
    (b.find (.text str past)).position = some (-1) ∧ ∀ i, ¬b.OccursAt str i

/-- `readUntil` gives unread bytes, and leaves the position before the length. -/
def ReadsUnread (b : ByteBuffer) (str : Bytes) (past : Nat → UInt8) : Prop :=
  (b.readUntil (.text str past)).2.1 <+: b.unread ∧
    (b.pos ≤ b.length → (b.readUntil (.text str past)).2.2.pos ≤ b.length)

/-- Where the text occurs, it has only ASCII characters, and occurs at an index of an `int32`; where it does not, it
stands nowhere across the end of the data or of the allocation, as far as the allocation shows it. -/
def Enclosed (b : ByteBuffer) (str : Bytes) (past : Nat → UInt8) : Prop :=
  ((∃ i, b.OccursAt str i) → (∀ c ∈ str, c < 128) ∧ ∃ i, i < 2 ^ 31 ∧ b.OccursAt str i) ∧
    ((∀ i, ¬b.OccursAt str i) → ∀ i, b.pos ≤ i → i < b.length → min b.length b.size < i + str.length →
      ¬b.Stands (.text str past) i)

theorem OccursAt.inside (h : b.OccursAt str i) (hstr : str ≠ []) : i + str.length ≤ b.size := by
  have hlen := congrArg List.length h.2.2
  have hpos := List.length_pos_of_ne_nil hstr
  have hcells : b.buffer.length = b.size := rfl
  rw [length_window, hcells] at hlen
  omega

/-- Inside of the allocation a `String` is found where it stands, but for one that is not ASCII. -/
theorem stands_text (hstr : str ≠ []) (hin : i + str.length ≤ b.size) :
    b.Stands (.text str past) i ↔ window b.buffer i (i + str.length) = str ∧ ∀ c ∈ str, c < 128 := by
  have hpos := List.length_pos_of_ne_nil hstr
  have hcells : b.buffer.length = b.size := rfl
  have hagrees : ∀ p (hp : p < str.length) c,
      (Delimiter.text str past).agrees p c = true ↔ c = str[p] ∧ str[p] < 128 := by
    intro p hp c
    rw [Delimiter.agrees, decide_eq_true_iff, List.getD_eq_getElem _ _ hp, char_eq_iff]
  constructor
  · intro h
    have hat : ∀ p (hp : p < str.length), b.buffer[i + p]? = some str[p] ∧ str[p] < 128 := by
      intro p hp
      have hcell := List.getElem?_eq_getElem (l := b.buffer) (i := i + p) (by omega)
      obtain ⟨heq, hascii⟩ := (hagrees p hp _).mp (h p _ (.inl hp) hcell)
      exact ⟨heq ▸ hcell, hascii⟩
    refine ⟨List.ext_getElem? fun p => ?_, fun c hc => ?_⟩
    · by_cases hp : p < str.length
      · rw [getElem?_window (by omega), (hat p hp).1, List.getElem?_eq_getElem hp]
      · rw [List.getElem?_eq_none (by rw [length_window]; omega), List.getElem?_eq_none (by omega)]
    · obtain ⟨p, hp, rfl⟩ := List.getElem_of_mem hc
      exact (hat p hp).2
  · rintro ⟨hwindow, hascii⟩ p c hp hc
    have hp : p < str.length := hp.resolve_right (Nat.ne_of_gt hpos)
    refine (hagrees p hp c).mpr ⟨?_, hascii _ (List.getElem_mem hp)⟩
    have hcell : (window b.buffer i (i + str.length))[p]? = b.buffer[i + p]? := getElem?_window (by omega)
    rw [hwindow, hc, List.getElem?_eq_getElem hp] at hcell
    exact (Option.some.inj hcell).symm

theorem OccursAt.stands (h : b.OccursAt str i) (hstr : str ≠ []) (hascii : ∀ c ∈ str, c < 128) :
    b.Stands (.text str past) i :=
  (stands_text hstr (h.inside hstr)).mpr ⟨h.2.2, hascii⟩

/-- What the search for a text went through. -/
theorem find_spec (b : ByteBuffer) (str : Bytes) (past : Nat → UInt8) :
    b.FoundAt (.text str past) b.pos (b.length - b.pos) (b.find (.text str past)) :=
  findLoop_spec b (.text str past) (b.length - b.pos) b.pos

theorem stands_of_probe {d : Delimiter} (h : b.probe d i ≠ .differs) : b.Stands d i := by
  rwa [Ne, probe_differs_iff, not_not] at h

/-- An ASCII text is found where it first occurs. -/
theorem OccursAt.find (hi : b.OccursAt str i) (hstr : str ≠ []) (hascii : ∀ c ∈ str, c < 128)
    (hfirst : ∀ j, j < i → ¬b.OccursAt str j) : b.find (.text str past) = .hit i := by
  have hpos := List.length_pos_of_ne_nil hstr
  have hwidth : (Delimiter.text str past).width = str.length := rfl
  have hstands := @OccursAt.stands b str past i hi hstr hascii
  have hin := hi.inside hstr
  have hend := hi.2.1
  have hnear : ∀ {k}, (∀ j, b.pos ≤ j → j < k → ¬b.Stands (.text str past) j) → k ≤ i := by
    intro k hk
    by_contra hlt
    exact hk i hi.1 (by omega) hstands
  have hfound := find_spec b str past
  cases hf : b.find (.text str past) with
  | hit k =>
    rw [hf] at hfound
    obtain ⟨hk, hlt, hp, hbefore⟩ := hfound
    have hki := hnear hbefore
    have hst := stands_of_probe (by rw [hp]; exact Probe.noConfusion)
    have hat : b.OccursAt str k := ⟨hk, by omega, ((stands_text hstr (by omega)).mp hst).1⟩
    obtain rfl : k = i := by
      by_contra hne
      exact hfirst k (by omega) hat
    rfl
  | missing =>
    rw [hf] at hfound
    exact absurd hstands (hfound i hi.1 (by omega))
  | outside =>
    rw [hf] at hfound
    obtain ⟨k, hk, hlt, hp, hbefore⟩ := hfound
    have hki := hnear hbefore
    have hout := probe_outside hp
    omega

/-- A text that stands at no index is not found. -/
theorem find_missing (hnone : ∀ k, b.pos ≤ k → k < b.length → ¬b.Stands (.text str past) k) :
    b.find (.text str past) = .missing := by
  have hfound := find_spec b str past
  cases hf : b.find (.text str past) with
  | hit k =>
    rw [hf] at hfound
    obtain ⟨hk, hlt, hp, -⟩ := hfound
    exact absurd (stands_of_probe (by rw [hp]; exact Probe.noConfusion)) (hnone k hk (by omega))
  | missing => rfl
  | outside =>
    rw [hf] at hfound
    obtain ⟨k, hk, hlt, hp, -⟩ := hfound
    exact absurd (stands_of_probe (by rw [hp]; exact Probe.noConfusion)) (hnone k hk (by omega))

/-- What `find` does on an enclosed text. -/
theorem Enclosed.find (h : b.Enclosed str past) (hstr : str ≠ []) :
    (∃ i, b.find (.text str past) = .hit i ∧ i < 2 ^ 31 ∧ b.OccursAt str i ∧ ∀ j, j < i → ¬b.OccursAt str j) ∨
      b.find (.text str past) = .missing ∧ ∀ i, ¬b.OccursAt str i := by
  by_cases hocc : ∃ i, b.OccursAt str i
  · obtain ⟨hascii, i₀, hi₀, hocc₀⟩ := h.1 hocc
    classical
    have hi : b.OccursAt str (Nat.find hocc) := Nat.find_spec hocc
    have hfirst : ∀ j, j < Nat.find hocc → ¬b.OccursAt str j := fun j hj => Nat.find_min hocc hj
    exact .inl ⟨_, hi.find hstr hascii hfirst, Nat.lt_of_le_of_lt (Nat.find_min' hocc hocc₀) hi₀, hi, hfirst⟩
  · have hno : ∀ i, ¬b.OccursAt str i := fun i hi => hocc ⟨i, hi⟩
    refine .inr ⟨find_missing fun k hk hlt hst => ?_, hno⟩
    by_cases hcross : min b.length b.size < k + str.length
    · exact h.2 hno k hk hlt hcross hst
    · exact hno k ⟨hk, by omega, ((stands_text hstr (by omega)).mp hst).1⟩

theorem position_hit (hi : i < 2 ^ 31) : (Found.hit i).position = some (i : Int) := by
  rw [Found.position, Int.bmod_eq_of_le_mul_two (by omega) (by omega)]

theorem position_eq {f : Found} {k : Nat} (hf : ∀ j, f = .hit j → j < 2 ^ 32) (h : f.position = some (k : Int)) :
    f = .hit k ∧ k < 2 ^ 31 := by
  cases f with
  | hit j =>
    have hj := hf j rfl
    have hk : (j : Int).bmod (2 ^ 32) = k := Option.some.inj h
    by_cases hlt : j < 2 ^ 31
    · rw [Int.bmod_eq_of_le_mul_two (by omega) (by omega), Nat.cast_inj] at hk
      exact ⟨congrArg Found.hit hk, hk ▸ hlt⟩
    · have hneg : (j : Int).bmod (2 ^ 32) = j - 2 ^ 32 := by
        rw [← Int.sub_bmod_right, Int.bmod_eq_of_le_mul_two (by push_cast; omega) (by push_cast; omega)]
        rfl
      omega
  | missing =>
    have hk : (-1 : Int) = k := Option.some.inj h
    omega
  | outside => cases h

theorem position_missing {f : Found} (hf : ∀ j, f = .hit j → j + 1 < 2 ^ 32) (h : f.position = some (-1)) :
    f = .missing := by
  cases f with
  | hit j =>
    have hj := hf j rfl
    have hk : (j : Int).bmod (2 ^ 32) = -1 := Option.some.inj h
    have hmod := @Int.bmod_emod (j : Int) (2 ^ 32)
    rw [hk] at hmod
    omega
  | missing => rfl
  | outside => cases h

/-- A search that is right is one for an enclosed text. -/
theorem FindsFirst.enclosed (h : b.FindsFirst str past) (hstr : str ≠ []) (hlen : b.length < 2 ^ 32) :
    b.Enclosed str past := by
  have hfound := find_spec b str past
  have hlast : ∀ j, b.find (.text str past) = .hit j → j + 1 < 2 ^ 32 := by
    intro j hj
    rw [hj] at hfound
    obtain ⟨hj, hlt, -⟩ := hfound
    omega
  rcases h with ⟨i, hpos, hocc, -⟩ | ⟨hpos, hno⟩
  · obtain ⟨hf, hlt⟩ := position_eq (fun j hj => by have := hlast j hj; omega) hpos
    rw [hf] at hfound
    obtain ⟨-, -, hp, -⟩ := hfound
    have hst : b.Stands (.text str past) i := stands_of_probe (by rw [hp]; exact Probe.noConfusion)
    exact ⟨fun _ => ⟨((stands_text hstr (hocc.inside hstr)).mp hst).2, i, hlt, hocc⟩, fun hno => absurd hocc (hno i)⟩
  · rw [position_missing hlast hpos] at hfound
    exact ⟨fun ⟨i, hocc⟩ => absurd hocc (hno i), fun _ i hi hlt _ => hfound i hi (by omega)⟩

theorem Enclosed.findsFirst (h : b.Enclosed str past) (hstr : str ≠ []) : b.FindsFirst str past := by
  rcases h.find hstr with ⟨i, hf, hlt, hocc, hfirst⟩ | ⟨hf, hno⟩
  · exact .inl ⟨i, by rw [hf, position_hit hlt], hocc, hfirst⟩
  · exact .inr ⟨by rw [hf]; rfl, hno⟩

theorem Enclosed.readsUnread (h : b.Enclosed str past) (hstr : str ≠ []) : b.ReadsUnread str past := by
  unfold ReadsUnread readUntil
  rcases h.find hstr with ⟨i, hf, hlt, hocc, -⟩ | ⟨hf, -⟩
  · have hend : i + (Delimiter.text str past).width ≤ b.length := hocc.2.1
    have hi := hocc.1
    rw [hf]
    simp only [hlt, if_true]
    exact ⟨⟨window b.buffer (i + (Delimiter.text str past).width) b.length, window_append (by omega) hend⟩,
      fun _ => hend⟩
  · rw [hf]
    exact ⟨List.nil_prefix, id⟩

/-- A search returns the first index at which the text stands in the unread bytes, and a read gives such bytes only,
just if the text is enclosed. -/
theorem find_first_iff (b : ByteBuffer) (str : Bytes) (past : Nat → UInt8) (hstr : str ≠ [])
    (hlen : b.length < 2 ^ 32) : b.FindsFirst str past ∧ b.ReadsUnread str past ↔ b.Enclosed str past :=
  ⟨fun h => h.1.enclosed hstr hlen, fun h => ⟨h.findsFirst hstr, h.readsUnread hstr⟩⟩

theorem find_first_iff_line : (ByteBuffer.mk (bytes "ab\r\ncd") 6 1 false).FindsFirst (bytes "\r\n") (fun _ => 0) ∧
    (ByteBuffer.mk (bytes "ab\r\ncd") 6 1 false).ReadsUnread (bytes "\r\n") (fun _ => 0) ↔
      (ByteBuffer.mk (bytes "ab\r\ncd") 6 1 false).Enclosed (bytes "\r\n") (fun _ => 0) :=
  find_first_iff _ _ _ (by decide) (by decide)

/-- The first two bytes of a line, in front of what an earlier line has left. -/
def stale : ByteBuffer :=
  { (((new 1 fun _ => 0).writeData (fun _ _ => 0) (bytes "x\r\n")).2.setLength 2) with pos := 0 }

/-- A delimiter is found whose end is stale. -/
theorem not_finds_stale : ¬∀ (b : ByteBuffer) (str : Bytes) (past : Nat → UInt8), str ≠ [] → b.length ≤ b.size →
    b.length < 2 ^ 32 → b.FindsFirst str past ∧ b.ReadsUnread str past := by
  intro h
  obtain ⟨-, hread, -⟩ := h stale (bytes "\r\n") (fun _ => 0) (by decide) (by decide) (by decide)
  revert hread
  decide

end ByteBuffer

end Srl
