import Srl.ByteBufferWrites

namespace Srl

open Cells

namespace Binary

/-- The bytes of an item in the buffer. -/
def Item.stream : Item → Bytes
  | array t obj => t.memory obj
  | string str | chars str => littleEndian 4 str.1.length ++ str.1

/-- How far a call moves the position, up to a wrap. -/
def Item.advance : Item → Nat
  | array t obj => t.sizeof * obj.length % 2 ^ 32
  | string str | chars str => 4 + str.1.length % 2 ^ 32

/-- The `char*` reader takes strings up to 511 characters. -/
def Item.Fits : Item → Prop
  | chars str => str.1.length < 512
  | _ => True

@[simp] theorem length_littleEndian (n v : Nat) : (littleEndian n v).length = n := by
  induction n generalizing v with
  | zero => rfl
  | succ n ih => simp [littleEndian, ih]

theorem length_memory (t : Scalar) (obj : List t.Value) : (t.memory obj).length = t.sizeof * obj.length := by
  induction obj with
  | nil => rfl
  | cons v obj ih =>
    rw [Scalar.memory] at ih
    rw [Scalar.memory, List.flatMap_cons, List.length_append, ih, length_littleEndian, List.length_cons,
      Nat.mul_succ, Nat.add_comm]

theorem uint32_littleEndian (n v : Nat) : ByteBuffer.uint32 (littleEndian n v) = v % 256 ^ n := by
  induction n generalizing v with
  | zero =>
    rw [Nat.pow_zero, Nat.mod_one]
    rfl
  | succ n ih =>
    have hcons : ByteBuffer.uint32 (littleEndian (n + 1) v) =
        (UInt8.ofNat v).toNat + 256 * ByteBuffer.uint32 (littleEndian n (v / 256)) := rfl
    have hbyte : (UInt8.ofNat v).toNat = v % 256 := UInt8.toNat_ofNat'
    rw [hcons, ih, hbyte, Nat.pow_succ', Nat.mod_mul]

theorem sizeof_pow (t : Scalar) : 256 ^ t.sizeof = 2 ^ (8 * t.sizeof) := by
  rw [Nat.pow_mul]

/-- An array in memory is read back, whatever stands behind it. -/
theorem values_memory (t : Scalar) (obj : List t.Value) (rest : Bytes) :
    t.values obj.length (t.memory obj ++ rest) = obj := by
  induction obj with
  | nil => rfl
  | cons v obj ih =>
    have hmemory : t.memory (v :: obj) ++ rest =
        littleEndian t.sizeof v.toNat ++ (t.memory obj ++ rest) := by
      rw [Scalar.memory, List.flatMap_cons, List.append_assoc]
      rfl
    have hlen : (littleEndian t.sizeof v.toNat).length = t.sizeof := length_littleEndian ..
    rw [hmemory, List.length_cons, Scalar.values, List.take_left' hlen, List.drop_left' hlen, ih,
      uint32_littleEndian, sizeof_pow, Nat.mod_eq_of_lt v.isLt, BitVec.ofNat_toNat, BitVec.setWidth_eq]

end Binary

open Binary

namespace ByteBuffer

variable {b b' : ByteBuffer} {fresh : ByteBuffer → Nat → UInt8} {obj : Nat → UInt8}

theorem write_pos (item : Item) :
    (b.write fresh item).2.pos = (b.pos + item.advance) % 2 ^ 32 ∧
      (b.write fresh item).2.length = (b.write fresh item).2.pos := by
  have hstring : ∀ str : Bytes, (b.writeString fresh str true).2.pos = (b.pos + (4 + str.length % 2 ^ 32)) % 2 ^ 32 ∧
      (b.writeString fresh str true).2.length = (b.writeString fresh str true).2.pos := by
    intro str
    refine ⟨?_, rfl⟩
    have htake : (str.take (str.length % 2 ^ 32)).length = str.length % 2 ^ 32 := by
      rw [List.length_take, Nat.min_eq_left (Nat.mod_le _ _)]
    show ((str.take (str.length % 2 ^ 32)).length % 2 ^ 32 +
      ((littleEndian 4 (str.length % 2 ^ 32)).length % 2 ^ 32 + b.pos) % 2 ^ 32) % 2 ^ 32 = _
    rw [htake, length_littleEndian]
    omega
  cases item with
  | array t obj =>
    refine ⟨?_, rfl⟩
    show ((t.memory obj).length % 2 ^ 32 + b.pos) % 2 ^ 32 = (b.pos + t.sizeof * obj.length % 2 ^ 32) % 2 ^ 32
    rw [length_memory, Nat.add_comm]
  | string str => exact hstring str.1
  | chars str => exact hstring str.1

theorem write_size (item : Item) (h : b.size < 2 ^ 32) : (b.write fresh item).2.size < 2 ^ 32 := by
  have hdata : ∀ {b : ByteBuffer} (data : Bytes), b.size < 2 ^ 32 → (b.writeData fresh data).2.size < 2 ^ 32 :=
    fun data h => (writeData_size data).trans_lt (max_lt h (by decide))
  cases item with
  | array t obj => exact hdata _ h
  | string str => exact hdata _ (hdata _ h)
  | chars str => exact hdata _ (hdata _ h)

/-- The position behind a sequence of writes. -/
theorem writeAll_pos (items : List Item) (hpos : b.pos < 2 ^ 32) (hsize : b.size < 2 ^ 32) :
    (b.writeAll fresh items).size < 2 ^ 32 ∧
      (b.writeAll fresh items).pos = (b.pos + (items.map Item.advance).sum) % 2 ^ 32 ∧
      (items ≠ [] → (b.writeAll fresh items).length = (b.writeAll fresh items).pos) := by
  induction items generalizing b with
  | nil =>
    refine ⟨hsize, ?_, fun h => absurd rfl h⟩
    rw [List.map_nil, List.sum_nil, Nat.add_zero, Nat.mod_eq_of_lt hpos]
    rfl
  | cons item items ih =>
    obtain ⟨hitem, hlen⟩ := @write_pos b fresh item
    have hlt : (b.write fresh item).2.pos < 2 ^ 32 := by
      rw [hitem]
      exact Nat.mod_lt _ (by decide)
    have hcons : b.writeAll fresh (item :: items) = (b.write fresh item).2.writeAll fresh items := rfl
    obtain ⟨hs, hp, hl⟩ := ih hlt (write_size item hsize)
    rw [hcons, List.map_cons, List.sum_cons]
    refine ⟨hs, ?_, fun _ => ?_⟩
    · rw [hp, hitem]
      omega
    · by_cases he : items = []
      · rw [he]
        exact hlen
      · exact hl he

/-- What a read that throws nothing says. -/
theorem read_stays {n : Nat} {raw : Bytes} (h : b.read n = (.ok raw, b')) (hsize : b.size < 2 ^ 32) :
    b' = { b with pos := b.pos + n } ∧ raw.length = n ∧ b.pos + n < b.length ∧ b.pos + n ≤ b.size := by
  unfold read at h
  split at h
  next => simp at h
  next hlen =>
    split at h
    next => simp at h
    next hfault =>
      obtain ⟨hraw, hb⟩ := Prod.mk.inj h
      cases Except.ok.inj hraw
      refine ⟨hb.symm, ?_, ?_, by omega⟩
      · rw [length_window]
        have : b.size = b.buffer.length := rfl
        omega
      · rw [Nat.mod_eq_of_lt (by omega)] at hlen
        omega

/-- A length that is read, and the bytes behind it. -/
theorem read_counted {m : Nat} {b₁ : ByteBuffer} {raw str : Bytes} (h : b.read 4 = (.ok raw, b₁))
    (h' : b₁.read m = (.ok str, b')) (hsize : b.size < 2 ^ 32) :
    b' = { b with pos := b.pos + (4 + str.length) } ∧ b.pos + (4 + str.length) < b.length ∧
      b.pos + (4 + str.length) ≤ b.size := by
  obtain ⟨rfl, -, -, -⟩ := read_stays h hsize
  obtain ⟨rfl, hlen, hlt, hle⟩ := read_stays h' hsize
  rw [hlen, ← Nat.add_assoc]
  exact ⟨rfl, hlt, hle⟩

theorem readString_ok {n : Nat} {str : Bytes} (h : b.readString 0 = (.ok (n, str), b')) (hsize : b.size < 2 ^ 32) :
    b' = { b with pos := b.pos + (4 + str.length) } ∧ b.pos + (4 + str.length) < b.length ∧
      b.pos + (4 + str.length) ≤ b.size := by
  simp only [readString, if_true] at h
  split at h
  next => simp at h
  next raw b₁ hread =>
    simp only [readChars] at h
    split at h
    next =>
      split at h
      next => simp at h
      next raw' b₂ hread' =>
        obtain ⟨hr, rfl⟩ := Prod.mk.inj h
        obtain ⟨-, rfl⟩ := Prod.mk.inj (Except.ok.inj hr)
        exact read_counted hread hread' hsize
    next =>
      obtain ⟨hr, rfl⟩ := Prod.mk.inj h
      obtain ⟨-, rfl⟩ := Prod.mk.inj (Except.ok.inj hr)
      obtain ⟨rfl, -, hlt, hle⟩ := read_stays hread hsize
      exact ⟨rfl, hlt, hle⟩

/-- The `char*` reader gives no string of 512 or more. -/
theorem readCharStar_ok {n : Nat} {str : Bytes} (h : b.readCharStar 0 = (.ok (n, str), b'))
    (hsize : b.size < 2 ^ 32) :
    b' = { b with pos := b.pos + (4 + str.length) } ∧ b.pos + (4 + str.length) < b.length ∧
      b.pos + (4 + str.length) ≤ b.size ∧ str.length < 512 := by
  simp only [readCharStar, if_true] at h
  split at h
  next => simp at h
  next raw b₁ hread =>
    simp only [readCString] at h
    split at h
    next hfew =>
      split at h
      next => simp at h
      next raw' b₂ hread' =>
        obtain ⟨-, hlen, -, -⟩ := read_stays hread' ((read_stays hread hsize).1 ▸ hsize)
        obtain ⟨hr, rfl⟩ := Prod.mk.inj h
        obtain ⟨-, rfl⟩ := Prod.mk.inj (Except.ok.inj hr)
        obtain ⟨hb, hlt, hle⟩ := read_counted hread hread' hsize
        exact ⟨hb, hlt, hle, by omega⟩
    next =>
      obtain ⟨hr, rfl⟩ := Prod.mk.inj h
      obtain ⟨-, rfl⟩ := Prod.mk.inj (Except.ok.inj hr)
      obtain ⟨rfl, -, hlt, hle⟩ := read_stays hread hsize
      exact ⟨rfl, hlt, hle, Nat.zero_lt_succ _⟩

/-- A read that gives an item back ends before the end of the buffer. -/
theorem readValue_ok {item : Item} {n : Nat} (h : b.readValue obj item.shape = (.ok (n, item.value), b'))
    (hsize : b.size < 2 ^ 32) :
    b' = { b with pos := b.pos + item.advance } ∧ b.pos + item.advance < b.length := by
  have hmap : ∀ {α : Type} {r : Except Thrown (Nat × α)} {f : α → Value},
      (r.map fun x => (x.1, f x.2)) = .ok (n, item.value) → ∃ a, r = .ok (n, a) ∧ f a = item.value := by
    intro α r f hr
    cases r with
    | error e => simp [Except.map] at hr
    | ok x =>
      obtain ⟨rfl, hv⟩ := Prod.mk.inj (Except.ok.inj hr)
      exact ⟨x.2, rfl, hv⟩
  cases item with
  | array t values =>
    obtain ⟨hr, hb⟩ := Prod.mk.inj h
    obtain ⟨vs, hvs, -⟩ := hmap hr
    split at hvs
    next => simp at hvs
    next raw b₁ hread =>
      obtain ⟨rfl, -, hlt, -⟩ := read_stays hread hsize
      rw [hread] at hb
      subst hb
      exact ⟨rfl, hlt⟩
  | string str =>
    obtain ⟨hr, hb⟩ := Prod.mk.inj h
    obtain ⟨s, hs, hv⟩ := hmap hr
    obtain rfl : s = str.1 := Value.string.inj hv
    obtain ⟨hpos, hlt, hle⟩ := readString_ok (Prod.ext hs hb) hsize
    rw [Item.advance, Nat.mod_eq_of_lt (by omega)]
    exact ⟨hpos, hlt⟩
  | chars str =>
    obtain ⟨hr, hb⟩ := Prod.mk.inj h
    obtain ⟨s, hs, hv⟩ := hmap hr
    obtain rfl : s = str.1 := Value.chars.inj hv
    obtain ⟨hpos, hlt, hle, -⟩ := readCharStar_ok (Prod.ext hs hb) hsize
    rw [Item.advance, Nat.mod_eq_of_lt (by omega)]
    exact ⟨hpos, hlt⟩

/-- The position behind reads that give the items back. -/
theorem readAll_ok {items : List Item}
    (h : readAll obj (items.map Item.shape) b = (.ok (items.map Item.value), b')) (hsize : b.size < 2 ^ 32) :
    b'.pos = b.pos + (items.map Item.advance).sum ∧ b'.length = b.length ∧
      (items ≠ [] → b'.pos < b'.length) := by
  induction items generalizing b with
  | nil =>
    obtain ⟨-, rfl⟩ := Prod.mk.inj h
    exact ⟨rfl, rfl, fun h => absurd rfl h⟩
  | cons item items ih =>
    simp only [List.map_cons, readAll] at h
    split at h
    next => simp at h
    next n v b₁ hv =>
      split at h
      next => simp at h
      next vs b₂ hvs =>
        obtain ⟨hr, rfl⟩ := Prod.mk.inj h
        obtain ⟨rfl, rfl⟩ := List.cons.inj (Except.ok.inj hr)
        obtain ⟨rfl, hlt⟩ := readValue_ok hv hsize
        obtain ⟨hpos, hlen, hend⟩ := ih hvs hsize
        rw [List.map_cons, List.sum_cons]
        refine ⟨by rw [hpos]; exact Nat.add_assoc .., hlen, fun _ => ?_⟩
        by_cases he : items = []
        · rw [hpos, hlen, he]
          simpa using hlt
        · exact hend he

theorem Holds.write {data : Bytes} {item : Item} (h : Holds b data)
    (hfew : data.length + item.stream.length + 16 < 2 ^ 32) : Holds (b.write fresh item).2 (data ++ item.stream) := by
  have hstring : ∀ str : Bytes, data.length + (4 + str.length) + 16 < 2 ^ 32 →
      Holds (b.writeString fresh str true).2 (data ++ (littleEndian 4 str.length ++ str)) := by
    intro str hfew
    have hmod : str.length % 2 ^ 32 = str.length := Nat.mod_eq_of_lt (by omega)
    have hprefix := @Holds.writeData _ fresh _ (littleEndian 4 str.length) h
      (by rw [length_littleEndian]; omega)
    have hboth := @Holds.writeData _ fresh _ str hprefix
      (by rw [List.length_append, length_littleEndian]; omega)
    rw [List.append_assoc] at hboth
    simp only [writeString, if_true, hmod, List.take_length]
    exact hboth
  cases item with
  | array t obj => exact h.writeData hfew
  | string str => exact hstring str.1 (by simpa [Item.stream] using hfew)
  | chars str => exact hstring str.1 (by simpa [Item.stream] using hfew)

theorem Holds.writeAll {data : Bytes} {items : List Item} (h : Holds b data)
    (hfew : data.length + (items.flatMap Item.stream).length + 16 < 2 ^ 32) :
    Holds (b.writeAll fresh items) (data ++ items.flatMap Item.stream) := by
  induction items generalizing b data with
  | nil => simpa [ByteBuffer.writeAll] using h
  | cons item items ih =>
    rw [List.flatMap_cons, List.length_append] at hfew
    rw [List.flatMap_cons, ← List.append_assoc]
    exact ih (h.write (by omega)) (by rw [List.length_append]; omega)

/-- The reads from a position on find the data that is left. -/
theorem read_stored {x y : Bytes} (h : window b.buffer b.pos b.length = x ++ y) (hy : y ≠ [])
    (hlen : b.length ≤ b.size) (hsize : b.size < 2 ^ 32) :
    b.read x.length = (.ok x, { b with pos := b.pos + x.length }) ∧
      window b.buffer (b.pos + x.length) b.length = y := by
  have hsizes := congrArg List.length h
  have hcells : b.buffer.length = b.size := rfl
  have hpos := List.length_pos_of_ne_nil hy
  rw [length_window, List.length_append, hcells] at hsizes
  have hwindow : window b.buffer b.pos (b.pos + x.length) ++ window b.buffer (b.pos + x.length) b.length = x ++ y := by
    rw [window_append (by omega) (by omega), h]
  obtain ⟨hx, hy'⟩ := List.append_inj hwindow (by rw [length_window]; omega)
  refine ⟨?_, hy'⟩
  unfold read
  rw [if_neg (by rw [Nat.mod_eq_of_lt (by omega)]; omega), if_neg (by omega), hx]

theorem readValue_stored {item : Item} {y : Bytes} (h : window b.buffer b.pos b.length = item.stream ++ y)
    (hy : y ≠ []) (hlen : b.length ≤ b.size) (hsize : b.size < 2 ^ 32) (hfits : item.Fits) :
    b.readValue obj item.shape =
        (.ok (item.stream.length, item.value), { b with pos := b.pos + item.stream.length }) ∧
      window b.buffer (b.pos + item.stream.length) b.length = y := by
  have hsizes := congrArg List.length h
  rw [length_window, List.length_append] at hsizes
  have hcells : b.buffer.length = b.size := rfl
  have hprefix : ∀ {str : Bytes}, window b.buffer b.pos b.length = (littleEndian 4 str.length ++ str) ++ y →
      str.length < 2 ^ 32 → b.read 4 = (.ok (littleEndian 4 str.length), { b with pos := b.pos + 4 }) ∧
        uint32 (littleEndian 4 str.length) = str.length ∧
        window b.buffer (b.pos + 4) b.length = str ++ y := by
    intro str h hstr
    rw [List.append_assoc] at h
    obtain ⟨hread, hrest⟩ := read_stored h (by simp [hy]) hlen hsize
    rw [length_littleEndian] at hread hrest
    refine ⟨hread, ?_, hrest⟩
    rw [uint32_littleEndian, Nat.mod_eq_of_lt (by omega)]
  cases item with
  | array t values =>
    obtain ⟨hread, hrest⟩ := read_stored h hy hlen hsize
    have hstream : (Item.array t values).stream.length = t.sizeof * values.length := length_memory t values
    have hmod : t.sizeof * values.length % 2 ^ 32 = t.sizeof * values.length := Nat.mod_eq_of_lt (by omega)
    have hmemory : (List.range (t.sizeof * values.length)).map
        (fun i => (Item.array t values).stream.getD i (obj i)) = t.memory values := by
      apply List.ext_getElem
      · rw [List.length_map, List.length_range, length_memory]
      · intro i h₁ h₂
        rw [List.getElem_map, List.getElem_range]
        exact List.getD_eq_getElem _ _ h₂
    have hvalues := values_memory t values []
    rw [List.append_nil] at hvalues
    rw [hstream] at hread hrest ⊢
    refine ⟨?_, hrest⟩
    simp only [readValue, Item.shape, readArray, hmod, hread, hmemory, hvalues]
    rfl
  | string str =>
    have hstream : (Item.string str).stream.length = 4 + str.1.length := by simp [Item.stream]
    obtain ⟨hread, hsize4, hrest⟩ := hprefix h (by omega)
    obtain ⟨hread', hrest'⟩ := read_stored (b := { b with pos := b.pos + 4 }) hrest hy hlen hsize
    rw [hstream, ← Nat.add_assoc]
    refine ⟨?_, hrest'⟩
    simp only [readValue, Item.shape, readString, if_true, hread, readChars, hsize4]
    by_cases hz : 0 < str.1.length
    · rw [if_pos hz, hread']
      rfl
    · have hnil : str.1 = [] := List.eq_nil_of_length_eq_zero (by omega)
      rw [if_neg hz]
      simp [hnil, Item.value, Except.map]
  | chars str =>
    have hstream : (Item.chars str).stream.length = 4 + str.1.length := by simp [Item.stream]
    obtain ⟨hread, hsize4, hrest⟩ := hprefix h (by omega)
    obtain ⟨hread', hrest'⟩ := read_stored (b := { b with pos := b.pos + 4 }) hrest hy hlen hsize
    rw [hstream, ← Nat.add_assoc]
    refine ⟨?_, hrest'⟩
    simp only [readValue, Item.shape, readCharStar, if_true, hread, readCString, hsize4]
    by_cases hz : 0 < str.1.length
    · rw [if_pos ⟨hz, hfits⟩, hread']
      rfl
    · have hnil : str.1 = [] := List.eq_nil_of_length_eq_zero (by omega)
      rw [if_neg (by omega)]
      simp [hnil, Item.value, Except.map]

theorem readAll_stored {items : List Item} {y : Bytes}
    (h : window b.buffer b.pos b.length = items.flatMap Item.stream ++ y) (hy : y ≠ [])
    (hlen : b.length ≤ b.size) (hsize : b.size < 2 ^ 32) (hfits : ∀ item ∈ items, item.Fits) :
    ∃ b', readAll obj (items.map Item.shape) b = (.ok (items.map Item.value), b') := by
  induction items generalizing b with
  | nil => exact ⟨b, rfl⟩
  | cons item items ih =>
    rw [List.flatMap_cons, List.append_assoc] at h
    obtain ⟨hread, hrest⟩ := @readValue_stored _ obj _ _ h (by simp [hy]) hlen hsize (hfits item (by simp))
    obtain ⟨b', hb'⟩ := ih (b := { b with pos := b.pos + item.stream.length }) hrest hlen hsize
      fun x hx => hfits x (by simp [hx])
    refine ⟨b', ?_⟩
    simp only [List.map_cons, readAll, hread, hb']

/-- All items come back that have bytes behind them. -/
theorem readAll_front (new_size : Nat) (memory : Nat → UInt8) (front back : List Item)
    (hback : back.flatMap Item.stream ≠ []) (hfits : ∀ item ∈ front, item.Fits)
    (hfew : ((front ++ back).flatMap Item.stream).length + 16 < 2 ^ 32) :
    ∃ b₁ b₂, ((new new_size memory).writeAll fresh (front ++ back)).setPosition 0 = .ok b₁ ∧
      readAll obj (front.map Item.shape) b₁ = (.ok (front.map Item.value), b₂) := by
  obtain ⟨hpos, -, -⟩ := new_spec new_size memory
  have hsize := new_lt new_size memory
  have hholds := @Holds.writeAll _ fresh _ (front ++ back) (new_holds new_size memory) (by rw [List.length_nil]; omega)
  obtain ⟨hsize', -, -⟩ := @writeAll_pos _ fresh (front ++ back) (by rw [hpos]; decide) hsize
  rw [List.nil_append] at hholds
  generalize (new new_size memory).writeAll fresh (front ++ back) = b at hholds hsize'
  have hwindow : window b.buffer 0 b.length = front.flatMap Item.stream ++ back.flatMap Item.stream := by
    rw [hholds.length, hholds.stored, List.flatMap_append]
  have hlen : b.length ≤ b.size := by
    rw [hholds.length]
    exact hholds.room
  obtain ⟨b₂, hb₂⟩ := @readAll_stored { b with pos := 0 } obj _ _ hwindow hback hlen hsize' hfits
  exact ⟨{ b with pos := 0 }, b₂, setPosition_ok.mpr ⟨rfl, Nat.zero_le _⟩, hb₂⟩

/-- What was written to the buffer comes back after `setPosition(0)`. -/
def RoundTrip (fresh : ByteBuffer → Nat → UInt8) (obj : Nat → UInt8) (b : ByteBuffer) (items : List Item) :
    Prop :=
  ∃ b₁ b₂, (b.writeAll fresh items).setPosition 0 = .ok b₁ ∧
    readAll obj (items.map Item.shape) b₁ = (.ok (items.map Item.value), b₂)

/-- The read of the last item ends at the length and throws, so nothing that was written comes back whole. -/
theorem roundTrip_iff (new_size : Nat) (memory : Nat → UInt8) (fresh : ByteBuffer → Nat → UInt8)
    (obj : Nat → UInt8) (items : List Item) :
    RoundTrip fresh obj (new new_size memory) items ↔ items = [] := by
  obtain ⟨hpos, -, -⟩ := new_spec new_size memory
  have hsize := new_lt new_size memory
  obtain ⟨hsize', hpos', hlen'⟩ :=
    @writeAll_pos _ fresh items (by rw [hpos]; decide) hsize
  constructor
  · rintro ⟨b₁, b₂, hrewind, hread⟩
    obtain ⟨rfl, -⟩ := setPosition_ok.mp hrewind
    by_contra hne
    obtain ⟨hend, hlen, hlt⟩ := readAll_ok hread hsize'
    have hlt := hlt hne
    rw [hend, hlen] at hlt
    rw [hpos, Nat.zero_add] at hpos'
    have hle := Nat.mod_le (items.map Item.advance).sum (2 ^ 32)
    have hwritten : ((new new_size memory).writeAll fresh items).length = (items.map Item.advance).sum % 2 ^ 32 := by
      rw [hlen' hne, hpos']
    simp only at hlt
    omega
  · rintro rfl
    exact ⟨_, _, rfl, rfl⟩

/-- A single byte does not come back. -/
theorem not_roundTrip_byte :
    ¬∀ (new_size : Nat) (memory : Nat → UInt8) (fresh : ByteBuffer → Nat → UInt8) (obj : Nat → UInt8)
      (items : List Item), RoundTrip fresh obj (new new_size memory) items := by
  intro h
  obtain ⟨b₁, b₂, hrewind, hread⟩ := h 16 (fun _ => 0) (fun _ _ => 0) (fun _ => 0) [.array .byte [7]]
  obtain ⟨rfl, -⟩ := setPosition_ok.mp hrewind
  have hthrown : (readAll (fun _ => 0) [.array .byte 1]
      { (new 16 fun _ => 0).writeAll (fun _ _ => 0) [.array .byte [7]] with pos := 0 }).1 =
        .error (.indexOutOfBounds (pastBoundary 0 1 1)) := by decide +kernel
  have hok := congrArg Prod.fst hread
  exact absurd (hthrown.symm.trans hok) (by simp)

end ByteBuffer

end Srl
