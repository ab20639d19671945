import Srl.BinaryRoundTrip

namespace Srl

open Cells Binary

namespace Binary

variable {item : Item}

theorem Item.advance_eq (h : item.stream.length < 2 ^ 32) : item.advance = item.stream.length := by
  have hstring : ∀ str : CString, (littleEndian 4 str.1.length ++ str.1).length < 2 ^ 32 →
      4 + str.1.length % 2 ^ 32 = (littleEndian 4 str.1.length ++ str.1).length := by
    intro str h
    rw [List.length_append, length_littleEndian] at h ⊢
    rw [Nat.mod_eq_of_lt (by omega)]
  cases item with
  | array t obj =>
    rw [Item.stream, length_memory] at h ⊢
    exact Nat.mod_eq_of_lt h
  | string str => exact hstring str h
  | chars str => exact hstring str h

end Binary

namespace ByteBuffer

variable {b b' w : ByteBuffer} {fresh : ByteBuffer → Nat → UInt8} {obj : Nat → UInt8} {item next : Item} {n : Nat}

theorem readCharStar_of_readValue {s : Bytes} (h : b.readValue obj .chars = (.ok (n, .chars s), b')) :
    b.readCharStar 0 = (.ok (n, s), b') := by
  cases hread : b.readCharStar 0 with
  | mk r b₁ =>
    simp only [readValue, hread] at h
    obtain ⟨hr, rfl⟩ := Prod.mk.inj h
    cases r with
    | error e => simp [Except.map] at hr
    | ok x =>
      obtain ⟨rfl, hv⟩ := Prod.mk.inj (Except.ok.inj hr)
      rw [← Value.chars.inj hv]

theorem readValue_fits (h : b.readValue obj item.shape = (.ok (n, item.value), b')) (hsize : b.size < 2 ^ 32) :
    item.Fits := by
  cases item with
  | array t values => trivial
  | string str => trivial
  | chars str => exact (readCharStar_ok (readCharStar_of_readValue h) hsize).2.2.2

/-- A C string with its length in front, another item and more bytes, written one after the other. -/
def writeFields (fresh : ByteBuffer → Nat → UInt8) (w : ByteBuffer) (str : CString) (next : Item) (more : Bytes) :
    ByteBuffer :=
  (((w.write fresh (.chars str)).2.write fresh next).2.writeData fresh more).2

/-- The `char*` reader consumes the field and gives the string back, and so does the read of the next field. -/
def ReadsFields (obj : Nat → UInt8) (b : ByteBuffer) (str : CString) (next : Item) : Prop :=
  b.readCharStar 0 = (.ok (4 + str.1.length, str.1), { b with pos := b.pos + (4 + str.1.length) }) ∧
    ∃ n b', { b with pos := b.pos + (4 + str.1.length) }.readValue obj next.shape = (.ok (n, next.value), b')

theorem writeFields_holds {front more : Bytes} {str : CString} (hw : Holds w front)
    (hroom : front.length + (4 + str.1.length) + next.stream.length + more.length + 16 < 2 ^ 32) :
    Holds (w.writeFields fresh str next more) (front ++ (Item.chars str).stream ++ next.stream ++ more) := by
  have hstream : (Item.chars str).stream.length = 4 + str.1.length := by simp [Item.stream]
  refine ((hw.write ?_).write ?_).writeData ?_
  · omega
  · rw [List.length_append]
    omega
  · rw [List.length_append, List.length_append]
    omega

theorem writeFields_size {str : CString} {more : Bytes} (h : w.size < 2 ^ 32) :
    (w.writeFields fresh str next more).size < 2 ^ 32 :=
  (writeData_size _).trans_lt (max_lt (write_size _ (write_size _ h)) (by decide))

/-- A field that `write(const char*)` has put into a buffer is consumed and given back, and the field behind it is
read, just if no `char*` field of them has 512 characters and there are more bytes behind them. -/
theorem readsFields_iff {front : Bytes} (hw : Holds w front) (hsize : w.size < 2 ^ 32) (str : CString)
    (next : Item) (more : Bytes) (hroom : front.length + (4 + 511) + next.stream.length + more.length + 16 < 2 ^ 32) :
    (∃ b, (w.writeFields fresh str next more).setPosition front.length = .ok b ∧ b.ReadsFields obj str next) ↔
      str.1.length < 512 ∧ next.Fits ∧ more ≠ [] := by
  have hsize' := @writeFields_size w fresh next str more hsize
  have hstream : (Item.chars str).stream.length = 4 + str.1.length := by simp [Item.stream]
  constructor
  · rintro ⟨b, hb, hread, n, b', hnext⟩
    obtain ⟨rfl, -⟩ := setPosition_ok.mp hb
    obtain ⟨-, -, -, hshort⟩ := readCharStar_ok hread hsize'
    refine ⟨hshort, readValue_fits hnext hsize', ?_⟩
    rintro rfl
    obtain ⟨-, hend⟩ := readValue_ok hnext hsize'
    have hholds := @writeFields_holds w fresh next front [] str hw (by rw [List.length_nil]; omega)
    rw [Item.advance_eq (by omega)] at hend
    have hlen := hholds.length
    rw [List.append_nil, List.length_append, List.length_append] at hlen
    simp only at hend
    omega
  · rintro ⟨hshort, hfits, hne⟩
    have hholds := @writeFields_holds w fresh next front more str hw (by omega)
    generalize w.writeFields fresh str next more = b at *
    have hlen := hholds.length
    have hroom' := hholds.room
    have hstored := hholds.stored
    rw [← hlen] at hroom' hstored
    have hfront : window b.buffer front.length b.length = (Item.chars str).stream ++ (next.stream ++ more) := by
      rw [window, ← window_zero, hstored, List.append_assoc, List.append_assoc, List.drop_left]
    obtain ⟨hread, hrest⟩ := @readValue_stored { b with pos := front.length } obj (.chars str) _ hfront (by simp [hne])
      hroom' hsize' hshort
    obtain ⟨hnext, -⟩ := @readValue_stored { b with pos := front.length + (Item.chars str).stream.length } obj next _
      hrest hne hroom' hsize' hfits
    rw [hstream] at hread hnext
    rw [List.length_append, List.length_append, List.length_append] at hlen
    exact ⟨{ b with pos := front.length }, setPosition_ok.mpr ⟨rfl, by omega⟩, readCharStar_of_readValue hread, _, _,
      hnext⟩

theorem readsFields_iff_three : (∃ b, ((new 16 fun _ => 0).writeFields (fun _ _ => 0) ⟨[65, 66, 67], by decide⟩
    (.array .uint16 [7]) [0]).setPosition 0 = .ok b ∧
      b.ReadsFields (fun _ => 0) ⟨[65, 66, 67], by decide⟩ (.array .uint16 [7])) ↔
        [65, 66, 67].length < 512 ∧ (Item.array .uint16 [7]).Fits ∧ [(0 : UInt8)] ≠ [] :=
  readsFields_iff (new_holds 16 fun _ => 0) (new_lt 16 _) ⟨[65, 66, 67], by decide⟩ (.array .uint16 [7]) [0]
    (by decide)

/-- A string of 512 characters stays in the buffer. -/
theorem not_readsFields_long : ¬∀ (w : ByteBuffer) (front : Bytes), Holds w front → w.size < 2 ^ 32 →
    ∀ (str : CString) (next : Item) (more : Bytes), next.Fits → more ≠ [] →
      front.length + (4 + str.1.length) + next.stream.length + more.length + 16 < 2 ^ 32 →
      ∃ b, (w.writeFields (fun _ _ => 0) str next more).setPosition front.length = .ok b ∧
        b.ReadsFields (fun _ => 0) str next := by
  intro h
  obtain ⟨str, hstr⟩ : ∃ str : CString, str.1.length = 512 :=
    ⟨⟨List.replicate 512 65, fun h => absurd (List.eq_of_mem_replicate h) (by decide)⟩, List.length_replicate⟩
  obtain ⟨b, hb, hread, -⟩ := h (new 16 fun _ => 0) [] (new_holds 16 _) (new_lt 16 _) str
    (.array .byte [7]) [0] trivial (List.cons_ne_nil 0 []) (by rw [hstr]; decide)
  obtain ⟨rfl, -⟩ := setPosition_ok.mp hb
  obtain ⟨-, -, -, hshort⟩ := readCharStar_ok hread (writeFields_size (new_lt 16 _))
  omega

end ByteBuffer

end Srl
