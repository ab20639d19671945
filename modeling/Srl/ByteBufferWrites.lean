import Srl.BinaryItems

namespace Srl

open Cells

namespace ByteBuffer

variable {b : ByteBuffer} {fresh : ByteBuffer → Nat → UInt8} {memory : Nat → UInt8} {n p : Nat}

theorem size_resize_le (n : Nat) (memory : Nat → UInt8) : (b.resize n memory).size ≤ max b.size (2 ^ 32 - 16) := by
  simp only [resize]
  split
  next hn =>
    split
    next =>
      split
      next =>
        rw [size_store]
        exact le_max_left _ _
      next => exact le_max_left _ _
    next =>
      rw [size_store]
      show (realloc b.buffer (roundup (n + 1) 16) memory).length ≤ _
      rw [length_realloc]
      exact le_max_of_le_right Nat.and_le_right
  next => exact Nat.zero_le _

theorem pos_resize (n : Nat) (memory : Nat → UInt8) :
    (b.resize n memory).pos = b.pos ∧ (b.resize n memory).length = b.length := by
  simp only [resize]
  split
  next =>
    split
    next => split <;> exact ⟨rfl, rfl⟩
    next => exact ⟨rfl, rfl⟩
  next => exact ⟨rfl, rfl⟩

/-- In the last 16 values of a `uint32` the rounded size is 0. -/
theorem roundup_wrapped (hn : 2 ^ 32 - 16 ≤ n) (hlt : n < 2 ^ 32) : roundup (n + 1) 16 = 0 := by
  have hmask := @and_mask ((n + 1 + 16 - 1) % 2 ^ 32) 4 (by decide) (Nat.mod_lt _ (by decide))
  rw [roundup]
  refine hmask.trans ?_
  omega

theorem size_resize_wrapped (memory : Nat → UInt8) (hn : 2 ^ 32 - 16 ≤ n) (hlt : n < 2 ^ 32) :
    (b.resize n memory).size = 0 := by
  simp only [resize, roundup_wrapped hn hlt]
  rw [if_pos (by omega)]
  split
  next hs => exact hs.symm
  next =>
    rw [size_store]
    exact length_realloc ..

/-- The buffer with room for `n` bytes and a terminator, as `writeData` makes it. -/
def withRoom (b : ByteBuffer) (n : Nat) (memory : Nat → UInt8) : ByteBuffer :=
  if b.size ≤ n then b.resize n memory else b

theorem pos_withRoom : (b.withRoom n memory).pos = b.pos := by
  unfold withRoom
  split
  next => exact (pos_resize ..).1
  next => rfl

theorem size_withRoom_le : (b.withRoom n memory).size ≤ max b.size (2 ^ 32 - 16) := by
  unfold withRoom
  split
  next => exact size_resize_le n memory
  next => exact le_max_left _ _

/-- There is room then, and no byte was lost. -/
theorem withRoom_spec (h0 : 0 < n) (hfew : n + 16 < 2 ^ 32) :
    n < (b.withRoom n memory).size ∧ (b.withRoom n memory).outside = b.outside ∧
      ∀ i j, j ≤ b.size → j ≤ n → window (b.withRoom n memory).buffer i j = window b.buffer i j := by
  unfold withRoom
  split
  next =>
    obtain ⟨hs, -, -, ho, hw⟩ := resize_spec (b := b) memory h0 hfew
    exact ⟨by omega, ho, fun i j hj hjn => hw i j hj (by omega)⟩
  next => exact ⟨by omega, rfl, fun _ _ _ _ => rfl⟩

theorem writeData_eq {data : Bytes} (hfew : data.length + b.pos < 2 ^ 32) :
    (b.writeData fresh data).2 =
      { ((b.withRoom (data.length + b.pos) (fresh b)).store b.pos data) with
        pos := data.length + b.pos, length := data.length + b.pos }.store (data.length + b.pos) [0] := by
  have hmod : data.length % 2 ^ 32 = data.length := Nat.mod_eq_of_lt (by omega)
  have hpos := @pos_withRoom b (fresh b) (data.length + b.pos)
  unfold withRoom at hpos ⊢
  unfold writeData
  simp only [hmod, Nat.mod_eq_of_lt hfew, List.take_length, hpos]

/-- The position and the length that a write leaves. -/
theorem writeData_pos (data : Bytes) :
    (b.writeData fresh data).2.pos = (data.length % 2 ^ 32 + b.pos) % 2 ^ 32 ∧
      (b.writeData fresh data).2.length = (data.length % 2 ^ 32 + b.pos) % 2 ^ 32 :=
  ⟨rfl, rfl⟩

theorem writeData_size (data : Bytes) : (b.writeData fresh data).2.size ≤ max b.size (2 ^ 32 - 16) := by
  unfold writeData
  simp only [size_store]
  show (ByteBuffer.store _ _ _).size ≤ _
  rw [size_store]
  exact size_withRoom_le

/-- The buffer holds the data in front of its position, where its length ends. -/
structure Holds (b : ByteBuffer) (data : Bytes) : Prop where
  pos : b.pos = data.length
  length : b.length = data.length
  room : data.length ≤ b.size
  stored : window b.buffer 0 data.length = data

/-- A write at the end of `data` puts `more` behind it, and a terminator behind that. -/
theorem writeData_spec {data more : Bytes} (hpos : b.pos = data.length) (hroom : data.length ≤ b.size)
    (hstored : window b.buffer 0 data.length = data) (hne : data ++ more ≠ [])
    (hfew : data.length + more.length + 16 < 2 ^ 32) :
    Holds (b.writeData fresh more).2 (data ++ more) ∧ (b.writeData fresh more).2.outside = b.outside := by
  have hlen : (data ++ more).length = more.length + b.pos := by
    rw [List.length_append, hpos, Nat.add_comm]
  have hbound : more.length + b.pos + 16 < 2 ^ 32 := by omega
  have h0 : 0 < more.length + b.pos := hlen ▸ List.length_pos_of_ne_nil hne
  obtain ⟨hsize, hout, hwindow⟩ := @withRoom_spec b (fresh b) _ h0 hbound
  rw [writeData_eq (by omega)]
  generalize b.withRoom (more.length + b.pos) (fresh b) = c at *
  have hcells : c.buffer.length = c.size := rfl
  refine ⟨⟨hlen.symm, hlen.symm, ?_, ?_⟩, ?_⟩
  · rw [size_store, hlen]
    show _ ≤ (c.store b.pos more).size
    rw [size_store]
    omega
  · show window (overwrite (overwrite c.buffer b.pos more) (more.length + b.pos) [0]) 0 _ = _
    rw [hlen, window_overwrite (le_refl _) (by rw [length_overwrite]; omega),
      ← window_append (Nat.zero_le b.pos) (Nat.le_add_left _ _), window_overwrite (le_refl _) (by omega),
      hwindow 0 b.pos (by omega) (by omega), hpos, hstored, Nat.add_comm, window_overwrite_self (by omega)]
  · refine (outside_store ?_).trans ((outside_store ?_).trans hout)
    · show _ + 1 ≤ (c.store b.pos more).size
      rw [size_store]
      omega
    · omega

theorem writeData_holds {data more : Bytes} (hpos : b.pos = data.length) (hroom : data.length ≤ b.size)
    (hstored : window b.buffer 0 data.length = data) (hfew : data.length + more.length + 16 < 2 ^ 32) :
    Holds (b.writeData fresh more).2 (data ++ more) := by
  by_cases hne : data ++ more = []
  · obtain ⟨rfl, rfl⟩ := List.append_eq_nil_iff.mp hne
    have hzero : (([] : Bytes).length % 2 ^ 32 + b.pos) % 2 ^ 32 = 0 := by
      rw [hpos]
      rfl
    obtain ⟨hp, hl⟩ := @writeData_pos b fresh []
    exact ⟨hp.trans hzero, hl.trans hzero, Nat.zero_le _, by simp⟩
  · exact (writeData_spec hpos hroom hstored hne hfew).1

theorem Holds.writeData {data more : Bytes} (h : Holds b data) (hfew : data.length + more.length + 16 < 2 ^ 32) :
    Holds (b.writeData fresh more).2 (data ++ more) :=
  writeData_holds h.pos h.room h.stored hfew

theorem new_spec (new_size : Nat) (memory : Nat → UInt8) :
    (new new_size memory).pos = 0 ∧ (new new_size memory).length = 0 ∧ (new new_size memory).size ≤ 2 ^ 32 - 16 :=
  ⟨(pos_resize _ _).1, (pos_resize _ _).2, (size_resize_le _ _).trans_eq (max_eq_right (Nat.zero_le _))⟩

theorem new_lt (new_size : Nat) (memory : Nat → UInt8) : (new new_size memory).size < 2 ^ 32 :=
  Nat.lt_of_le_of_lt (new_spec new_size memory).2.2 (by decide)

theorem new_holds (new_size : Nat) (memory : Nat → UInt8) : Holds (new new_size memory) [] := by
  obtain ⟨hp, hl, -⟩ := new_spec new_size memory
  exact ⟨hp, hl, Nat.zero_le _, by simp⟩

theorem outside_new (new_size : Nat) (memory : Nat → UInt8) (h : new_size < 2 ^ 32) :
    (new new_size memory).outside = false := by
  by_cases h0 : 0 < new_size
  · by_cases hfew : new_size + 16 < 2 ^ 32
    · exact (resize_spec memory h0 hfew).2.2.2.1
    · simp only [new, resize, roundup_wrapped (by omega) h]
      rw [if_pos h0]
      rfl
  · obtain rfl : new_size = 0 := by omega
    rfl

/-- A text and a position in it, as a buffer shows them. -/
def Shows (b : ByteBuffer) (s : Bytes × Nat) : Prop :=
  b.pos = s.2 ∧ b.length = s.1.length ∧ window b.buffer 0 b.length = s.1 ∧ b.outside = false

/-- The calls of a writer. -/
inductive WriteOp
  | setPosition (pos : Nat)
  | writeData (data : Bytes)

namespace WriteOp

def call (fresh : ByteBuffer → Nat → UInt8) (b : ByteBuffer) : WriteOp → Except Thrown ByteBuffer
  | setPosition pos => b.setPosition pos
  | writeData data => .ok (b.writeData fresh data).2

/-- What a call makes of a text and a position: a write replaces what stands from the position on. -/
def onText (s : Bytes × Nat) : WriteOp → Bytes × Nat
  | setPosition pos => (s.1, pos)
  | writeData data => (s.1.take s.2 ++ data, (s.1.take s.2 ++ data).length)

/-- A position up to the length, or at least one byte. -/
def Allowed (s : Bytes × Nat) : WriteOp → Prop
  | setPosition pos => pos ≤ s.1.length
  | writeData data => data ≠ []

/-- The write ends before the last 16 values of a `uint32`. -/
def Fits (s : Bytes × Nat) : WriteOp → Prop
  | setPosition _ => True
  | writeData data => s.2 + data.length + 16 < 2 ^ 32

/-- Every call of a sequence has the property, on the text and the position before it. -/
def Along (p : Bytes × Nat → WriteOp → Prop) : Bytes × Nat → List WriteOp → Prop
  | _, [] => True
  | s, op :: ops => p s op ∧ Along p (op.onText s) ops

end WriteOp

def runWrites (fresh : ByteBuffer → Nat → UInt8) : List WriteOp → ByteBuffer → Except Thrown ByteBuffer
  | [], b => .ok b
  | op :: ops, b => do runWrites fresh ops (← op.call fresh b)

variable {s : Bytes × Nat} {op : WriteOp} {ops : List WriteOp}

theorem Shows.length_le (h : b.Shows s) : s.1.length ≤ b.size := by
  obtain ⟨-, hl, hw, -⟩ := h
  have hlen := congrArg List.length hw
  rw [length_window] at hlen
  have hcells : b.buffer.length = b.size := rfl
  omega

theorem Shows.writeData (h : b.Shows s) (hp : s.2 ≤ s.1.length) {data : Bytes} (hne : data ≠ [])
    (hfew : s.2 + data.length + 16 < 2 ^ 32) :
    (b.writeData fresh data).2.Shows (WriteOp.onText s (.writeData data)) := by
  have hle := h.length_le
  obtain ⟨hpos, hl, hw, ho⟩ := h
  have hlen : (s.1.take s.2).length = s.2 := by rw [List.length_take, Nat.min_eq_left hp]
  have hstored : window b.buffer 0 (s.1.take s.2).length = s.1.take s.2 := by
    rw [hlen, window_zero]
    rw [window_zero, hl] at hw
    rw [← hw, List.take_take, Nat.min_eq_left hp]
  obtain ⟨hholds, hout⟩ := @writeData_spec b fresh (s.1.take s.2) data (by rw [hlen, hpos]) (by omega) hstored
    (by simp [hne]) (by omega)
  exact ⟨hholds.pos, hholds.length, by rw [hholds.length, hholds.stored]; rfl, hout.trans ho⟩

/-- A write that ends later wraps the position, or the rounded size. -/
theorem not_shows_writeData (hpos : b.pos = s.2) (hsize : b.size ≤ 2 ^ 32 - 16) (hp : s.2 ≤ s.1.length) {data : Bytes}
    (hmany : ¬s.2 + data.length + 16 < 2 ^ 32) :
    ¬(b.writeData fresh data).2.Shows (WriteOp.onText s (.writeData data)) := by
  rintro ⟨hend, -, -, hout⟩
  have hlen : (s.1.take s.2).length = s.2 := by rw [List.length_take, Nat.min_eq_left hp]
  have htext : (WriteOp.onText s (.writeData data)).2 = s.2 + data.length := by
    show (s.1.take s.2 ++ data).length = _
    rw [List.length_append, hlen]
  rw [(writeData_pos data).1, htext] at hend
  have hlt : data.length + b.pos < 2 ^ 32 := by
    have := Nat.mod_lt (data.length % 2 ^ 32 + b.pos) (show 0 < 2 ^ 32 by decide)
    omega
  have hzero : (b.withRoom (data.length + b.pos) (fresh b)).size = 0 := by
    rw [withRoom, if_pos (by omega)]
    exact size_resize_wrapped _ (by omega) hlt
  rw [writeData_eq hlt] at hout
  generalize b.withRoom (data.length + b.pos) (fresh b) = c at *
  have hstored : (c.store b.pos data).size = 0 := by rw [size_store, hzero]
  have hstop : decide ((c.store b.pos data).size < data.length + b.pos + 1) = false :=
    (Bool.or_eq_false_iff.mp hout).2
  rw [hstored] at hstop
  simp at hstop

theorem Shows.call (h : b.Shows s) (hp : s.2 ≤ s.1.length) (hallowed : op.Allowed s) (hfits : op.Fits s) :
    ∃ b', op.call fresh b = .ok b' ∧ b'.Shows (op.onText s) := by
  cases op with
  | setPosition pos =>
    have hle := h.length_le
    obtain ⟨-, hl, hw, ho⟩ := h
    have hpos : pos ≤ s.1.length := hallowed
    exact ⟨{ b with pos := pos }, setPosition_ok.mpr ⟨rfl, by omega⟩, rfl, hl, hw, ho⟩
  | writeData data => exact ⟨_, rfl, h.writeData hp hallowed hfits⟩

theorem call_size (hsize : b.size ≤ 2 ^ 32 - 16) {b' : ByteBuffer} (h : op.call fresh b = .ok b') :
    b'.size ≤ 2 ^ 32 - 16 := by
  cases op with
  | setPosition pos =>
    obtain ⟨rfl, -⟩ := setPosition_ok.mp h
    exact hsize
  | writeData data =>
    cases h
    exact (writeData_size data).trans (max_le hsize (le_refl _))

theorem onText_le (hallowed : op.Allowed s) : (op.onText s).2 ≤ (op.onText s).1.length := by
  cases op with
  | setPosition pos => exact hallowed
  | writeData data => exact le_refl _

theorem runWrites_cons {b' : ByteBuffer} (h : op.call fresh b = .ok b') :
    runWrites fresh (op :: ops) b = runWrites fresh ops b' := by
  rw [runWrites, h]
  rfl

theorem runWrites_singleton : runWrites fresh [op] b = op.call fresh b := by
  rw [runWrites]
  cases op.call fresh b <;> rfl

/-- From a buffer that shows a text. -/
theorem runWrites_iff (h : b.Shows s) (hp : s.2 ≤ s.1.length) (hsize : b.size ≤ 2 ^ 32 - 16)
    (hallowed : WriteOp.Along WriteOp.Allowed s ops) :
    (∀ done, done <+: ops → ∃ b', runWrites fresh done b = .ok b' ∧ b'.Shows (done.foldl WriteOp.onText s)) ↔
      WriteOp.Along WriteOp.Fits s ops := by
  induction ops generalizing b s with
  | nil =>
    refine iff_of_true (fun done hdone => ?_) trivial
    obtain rfl := List.prefix_nil.mp hdone
    exact ⟨b, rfl, h⟩
  | cons op ops ih =>
    obtain ⟨ha, has⟩ := hallowed
    have hp' := onText_le ha
    constructor
    · intro hall
      obtain ⟨b₁, hb₁, hs₁⟩ := hall [op] (List.prefix_append [op] ops)
      have hcall : op.call fresh b = .ok b₁ := runWrites_singleton.symm.trans hb₁
      have hfits : op.Fits s := by
        cases op with
        | setPosition pos => trivial
        | writeData data =>
          by_contra hmany
          cases hcall
          exact not_shows_writeData h.1 hsize hp hmany hs₁
      refine ⟨hfits, (ih hs₁ hp' (call_size hsize hcall) has).mp fun done hdone => ?_⟩
      obtain ⟨b', hb', hs'⟩ := hall (op :: done) (List.prefix_cons_inj op |>.mpr hdone)
      exact ⟨b', (runWrites_cons hcall).symm.trans hb', hs'⟩
    · rintro ⟨hfits, hrest⟩ done hdone
      rcases List.prefix_cons_iff.mp hdone with rfl | ⟨rest, rfl, hrest'⟩
      · exact ⟨b, rfl, h⟩
      · obtain ⟨b₁, hcall, hs₁⟩ := @Shows.call b fresh s op h hp ha hfits
        obtain ⟨b', hb', hs'⟩ := (ih hs₁ hp' (call_size hsize hcall) has).mpr hrest rest hrest'
        exact ⟨b', (runWrites_cons hcall).trans hb', hs'⟩

theorem new_shows (new_size : Nat) (memory : Nat → UInt8) (h : new_size < 2 ^ 32) :
    (new new_size memory).Shows ([], 0) := by
  obtain ⟨hp, hl, -⟩ := new_spec new_size memory
  exact ⟨hp, hl, by rw [hl]; simp, outside_new new_size memory h⟩

/-- After every call of a sequence the buffer shows the text that the writes make, and no index outside of it was
used, just if no write ends in the last 16 values of a `uint32` or beyond. -/
theorem runWrites_shows (new_size : Nat) (memory : Nat → UInt8) (fresh : ByteBuffer → Nat → UInt8)
    (ops : List WriteOp) (hnew : new_size < 2 ^ 32) (hallowed : WriteOp.Along WriteOp.Allowed ([], 0) ops) :
    (∀ done, done <+: ops → ∃ b, runWrites fresh done (new new_size memory) = .ok b ∧
      b.Shows (done.foldl WriteOp.onText ([], 0))) ↔ WriteOp.Along WriteOp.Fits ([], 0) ops :=
  runWrites_iff (new_shows new_size memory hnew) (le_refl _) (new_spec new_size memory).2.2 hallowed

theorem runWrites_shows_patch : (∀ done, done <+: [.writeData [1, 2, 3], .setPosition 1, .writeData [4]] →
    ∃ b, runWrites (fun _ _ => 0) done (new 1 fun _ => 0) = .ok b ∧
      b.Shows (done.foldl WriteOp.onText ([], 0))) ↔
        WriteOp.Along WriteOp.Fits ([], 0) [.writeData [1, 2, 3], .setPosition 1, .writeData [4]] :=
  runWrites_shows 1 (fun _ => 0) (fun _ _ => 0) _ (by decide)
    ⟨List.cons_ne_nil 1 [2, 3], show 1 ≤ 3 by decide, List.cons_ne_nil 4 [], trivial⟩

/-- A write of 4294967280 bytes asks for an allocation of no bytes. -/
theorem not_shows_many : ¬∀ (new_size : Nat) (memory : Nat → UInt8) (fresh : ByteBuffer → Nat → UInt8)
    (ops : List WriteOp), new_size < 2 ^ 32 → WriteOp.Along WriteOp.Allowed ([], 0) ops →
      ∀ done, done <+: ops → ∃ b, runWrites fresh done (new new_size memory) = .ok b ∧
        b.Shows (done.foldl WriteOp.onText ([], 0)) := by
  intro h
  obtain ⟨data, hlen⟩ : ∃ data : Bytes, data.length = 2 ^ 32 - 16 := ⟨List.replicate _ 0, List.length_replicate⟩
  have hne : data ≠ [] := List.ne_nil_of_length_pos (by omega)
  obtain ⟨b, hb, hs⟩ := h 1024 (fun _ => 0) (fun _ _ => 0) [.writeData data] (by decide) ⟨hne, trivial⟩ _
    (List.prefix_refl _)
  cases hb
  exact not_shows_writeData (new_spec 1024 _).1 (new_spec 1024 _).2.2 (le_refl 0) (by show ¬0 + _ + 16 < _; omega) hs

end ByteBuffer

end Srl
