import Srl.ByteBuffer

namespace Srl

open Cells

namespace Socket

/-- The kernel's `send` in its rounds, which accepts no more than it is offered, and the text of its errors. -/
structure Kernel where
  send : Nat → Nat → Int
  error : Nat → Bytes
  bounded : ∀ round len, send round len ≤ len

/-- A call of the kernel's `send`: the bytes that it was offered, and its answer. -/
structure SendCall where
  slice : Bytes
  sent : Int
deriving DecidableEq

/-- The bytes that were accepted. -/
def SendCall.accepted (c : SendCall) : Bytes := c.slice.take c.sent.toNat

/-- A `Socket::Descriptor`; its handle is `none` for `INVALID`. -/
structure Descriptor where
  socket : Option Nat
  connected : Bool
  bound : Bool
  listening : Bool
deriving DecidableEq

def Descriptor.close (_ : Descriptor) : Descriptor :=
  { socket := none, connected := false, bound := false, listening := false }

/-- The loop of `send`, whose sums stay below `len`, an `int`. It lists the calls of the kernel, which no branch
reads. -/
def sendLoop (kernel : Kernel) (desc : Descriptor) (data : Bytes) (round unsentbuf senttotal len : Nat) :
    Except Thrown Nat × Descriptor × List SendCall :=
  if len = 0 then (.ok senttotal, desc, [])
  else
    let sent := kernel.send round len
    let call := ⟨window data unsentbuf (unsentbuf + len), sent⟩
    if sent = 0 then (.error (.socketDisconnected (bytes "socket disconnected during send")), desc.close, [call])
    else if sent < 0 then (.error (.socketException (kernel.error round)), desc, [call])
    else
      let r := sendLoop kernel desc data (round + 1) (unsentbuf + sent.toNat) (senttotal + sent.toNat)
        (len - sent.toNat)
      (r.1, r.2.1, call :: r.2.2)
termination_by len

/-- `send(data, len)`. -/
def send (kernel : Kernel) (desc : Descriptor) (data : Bytes) : Except Thrown Nat × Descriptor × List SendCall :=
  if desc.connected then sendLoop kernel desc data 0 0 0 data.length
  else (.error (.socketException (bytes "socket must be connected to send data")), desc, [])

/-- The accepted parts of the calls, one after the other. -/
def accepted (calls : List SendCall) : Bytes := calls.flatMap SendCall.accepted

/-- Each call is offered what the calls before it have left of `rest`. -/
def Offers : Bytes → List SendCall → Prop
  | _, [] => True
  | rest, c :: calls => c.slice = rest ∧ Offers (rest.drop c.accepted.length) calls

/-- How a loop over `rest` ends: with everything accepted, or at the first answer that is not positive. -/
inductive Ends (kernel : Kernel) (desc : Descriptor) (rest : Bytes) (senttotal : Nat) :
    Except Thrown Nat × Descriptor × List SendCall → Prop
  | returned {calls} : accepted calls = rest → (∀ c ∈ calls, 0 < c.sent) →
      Ends kernel desc rest senttotal (.ok (senttotal + rest.length), desc, calls)
  | closed {calls c} : accepted calls ++ c.slice = rest → c.slice ≠ [] → (∀ c ∈ calls, 0 < c.sent) → c.sent = 0 →
      Ends kernel desc rest senttotal
        (.error (.socketDisconnected (bytes "socket disconnected during send")), desc.close, calls ++ [c])
  | failed {calls c} (round : Nat) : accepted calls ++ c.slice = rest → c.slice ≠ [] → (∀ c ∈ calls, 0 < c.sent) →
      c.sent < 0 → Ends kernel desc rest senttotal
        (.error (.socketException (kernel.error round)), desc, calls ++ [c])

variable {kernel : Kernel} {desc : Descriptor} {data rest : Bytes} {round unsentbuf senttotal len : Nat}
  {calls : List SendCall}

theorem accepted_cons (c : SendCall) : accepted (c :: calls) = c.accepted ++ accepted calls := List.flatMap_cons

theorem accepted_append (calls' : List SendCall) : accepted (calls ++ calls') = accepted calls ++ accepted calls' :=
  List.flatMap_append

/-- A refused call accepts nothing. -/
theorem accepted_refused {c : SendCall} (h : c.sent ≤ 0) : c.accepted = [] := by
  rw [SendCall.accepted, Int.toNat_of_nonpos h, List.take_zero]

theorem Ends.cons {c : SendCall} {r : Except Thrown Nat × Descriptor × List SendCall} {k : Nat}
    (h : Ends kernel desc (rest.drop k) (senttotal + k) r) (hslice : c.slice = rest) (hsent : c.sent = k) (hk : 0 < k)
    (hle : k ≤ rest.length) : Ends kernel desc rest senttotal (r.1, r.2.1, c :: r.2.2) := by
  have hc : c.accepted = rest.take k := by rw [SendCall.accepted, hslice, hsent, Int.toNat_natCast]
  have hpos : ∀ {calls : List SendCall}, (∀ c ∈ calls, 0 < c.sent) → ∀ c' ∈ c :: calls, 0 < c'.sent := by
    intro calls h c' hc'
    rcases List.mem_cons.mp hc' with rfl | hc'
    · omega
    · exact h c' hc'
  cases h with
  | returned hall hsent =>
    have htotal : senttotal + k + (rest.drop k).length = senttotal + rest.length := by
      rw [List.length_drop]
      omega
    rw [htotal]
    exact .returned (by rw [accepted_cons, hall, hc, List.take_append_drop]) (hpos hsent)
  | @closed calls last hall hne hsent hzero =>
    exact @Ends.closed kernel desc rest senttotal (c :: calls) last
      (by rw [accepted_cons, List.append_assoc, hall, hc, List.take_append_drop]) hne (hpos hsent) hzero
  | @failed calls last round hall hne hsent hneg =>
    exact @Ends.failed kernel desc rest senttotal (c :: calls) last round
      (by rw [accepted_cons, List.append_assoc, hall, hc, List.take_append_drop]) hne (hpos hsent) hneg

theorem sendLoop_spec (hlen : unsentbuf + len = data.length) :
    Offers (data.drop unsentbuf) (sendLoop kernel desc data round unsentbuf senttotal len).2.2 ∧
      Ends kernel desc (data.drop unsentbuf) senttotal (sendLoop kernel desc data round unsentbuf senttotal len) := by
  induction len using Nat.strong_induction_on generalizing round unsentbuf senttotal with
  | h len ih =>
  have hrest : (data.drop unsentbuf).length = len := by
    rw [List.length_drop]
    omega
  have hslice : window data unsentbuf (unsentbuf + len) = data.drop unsentbuf := by
    rw [window, hlen, List.take_length]
  rw [sendLoop]
  split
  next hzero =>
    have hnil : data.drop unsentbuf = [] := List.eq_nil_of_length_eq_zero (hrest.trans hzero)
    rw [hnil]
    exact ⟨trivial, .returned rfl (by simp)⟩
  next hpos =>
    have hne : data.drop unsentbuf ≠ [] := List.ne_nil_of_length_pos (by omega)
    have hsent := kernel.bounded round len
    rw [hslice]
    generalize kernel.send round len = sent at *
    simp only
    split
    next hzero => exact ⟨⟨rfl, trivial⟩, @Ends.closed _ _ _ _ [] _ rfl hne (by simp) hzero⟩
    next =>
      split
      next hneg => exact ⟨⟨rfl, trivial⟩, @Ends.failed _ _ _ _ [] _ round rfl hne (by simp) hneg⟩
      next =>
        obtain ⟨k, rfl⟩ := Int.eq_ofNat_of_zero_le (show 0 ≤ sent by omega)
        rw [Int.toNat_natCast]
        have hlt : 0 < k ∧ k ≤ len := by omega
        obtain ⟨hoffers, hends⟩ := @ih (len - k) (by omega) (round + 1) (unsentbuf + k) (senttotal + k) (by omega)
        rw [← List.drop_drop] at hoffers hends
        refine ⟨⟨rfl, ?_⟩, hends.cons rfl rfl hlt.1 (by omega)⟩
        rwa [SendCall.accepted, List.length_take, Int.toNat_natCast, hrest, Nat.min_eq_left hlt.2]

/-- Consecutive slices: a call is offered the data behind what the calls before it had accepted. -/
theorem Offers.slice (h : Offers rest calls) {before after : List SendCall} {c : SendCall}
    (hcalls : calls = before ++ c :: after) : c.slice = rest.drop (accepted before).length := by
  subst hcalls
  induction before generalizing rest with
  | nil => exact h.1
  | cons b before ih =>
    rw [accepted_cons, List.length_append, ← List.drop_drop]
    exact ih h.2

/-- What a refused call means for the calls up to it. -/
theorem refused_last {c : SendCall} (hall : accepted calls ++ c.slice = data) (hne : c.slice ≠ [])
    (hsent : ∀ c ∈ calls, 0 < c.sent) (hrefused : c.sent ≤ 0) :
    accepted (calls ++ [c]) <+: data ∧ accepted (calls ++ [c]) ≠ data ∧
      ∀ before c' after, calls ++ [c] = before ++ c' :: after → c'.sent ≤ 0 → after = [] := by
  have hcalls : accepted (calls ++ [c]) = accepted calls := by
    rw [accepted_append, accepted_cons, accepted_refused hrefused]
    exact List.append_nil _
  refine ⟨⟨c.slice, by rw [hcalls, hall]⟩, fun h => ?_, fun before c' after h hc' => ?_⟩
  · rw [hcalls, ← hall] at h
    exact hne (List.self_eq_append_right.mp h)
  · rcases List.eq_nil_or_concat after with rfl | ⟨xs, x, rfl⟩
    · rfl
    · rw [List.concat_eq_append, ← List.cons_append, ← List.append_assoc] at h
      obtain ⟨rfl, -⟩ := List.append_inj' h rfl
      have := hsent c' (by simp)
      omega

/-- What a `send` of the data does: the kernel is handed consecutive slices and accepts a prefix of the data;
the length is returned just if that is all of the data, and the call throws just if an answer is not positive,
which is the last one then. -/
structure HandsOver (data : Bytes) (r : Except Thrown Nat × Descriptor × List SendCall) : Prop where
  consecutive : ∀ before c after, r.2.2 = before ++ c :: after → c.slice = data.drop (accepted before).length
  accepts : accepted r.2.2 <+: data
  returns : ∀ n, r.1 = .ok n ↔ n = data.length ∧ accepted r.2.2 = data
  throws : (∃ e, r.1 = .error e) ↔ ∃ c ∈ r.2.2, c.sent ≤ 0
  last : ∀ before c after, r.2.2 = before ++ c :: after → c.sent ≤ 0 → after = []

/-- Whatever the kernel answers. -/
theorem send_hands_over (kernel : Kernel) (desc : Descriptor) (data : Bytes) (hconnected : desc.connected = true) :
    HandsOver data (send kernel desc data) := by
  rw [send, if_pos hconnected]
  obtain ⟨hoffers, hends⟩ := @sendLoop_spec kernel desc data 0 0 0 data.length (Nat.zero_add _)
  rw [List.drop_zero] at hoffers hends
  have hconsecutive := fun before c after h => @Offers.slice data _ hoffers before after c h
  generalize sendLoop kernel desc data 0 0 0 data.length = r at *
  cases hends with
  | @returned calls hall hsent =>
    refine ⟨hconsecutive, ⟨[], by rw [List.append_nil, hall]⟩, fun n => ?_, ?_, fun before c after h hc => ?_⟩
    · rw [Nat.zero_add]
      exact ⟨fun h => ⟨(Except.ok.inj h).symm, hall⟩, fun h => by rw [h.1]⟩
    · exact iff_of_false (by simp) fun ⟨c, hc, hle⟩ => absurd (hsent c hc) (by omega)
    · have := hsent c (by simp only at h; rw [h]; simp)
      omega
  | @closed calls last hall hne hsent hzero =>
    obtain ⟨hle, hnot, hlast⟩ := refused_last hall hne hsent (by omega)
    exact ⟨hconsecutive, hle, fun n => iff_of_false (by simp) fun h => hnot h.2,
      iff_of_true ⟨_, rfl⟩ ⟨last, by simp, by omega⟩, hlast⟩
  | @failed calls last round hall hne hsent hneg =>
    obtain ⟨hle, hnot, hlast⟩ := refused_last hall hne hsent (by omega)
    exact ⟨hconsecutive, hle, fun n => iff_of_false (by simp) fun h => hnot h.2,
      iff_of_true ⟨_, rfl⟩ ⟨last, by simp, by omega⟩, hlast⟩

/-- A kernel that accepts two bytes at a time. -/
def pairs : Kernel where
  send _ len := min 2 len
  error _ := []
  bounded _ len := min_le_right 2 (len : Int)

theorem send_hands_over_pairs : HandsOver [1, 2, 3] (send pairs ⟨some 3, true, false, false⟩ [1, 2, 3]) :=
  send_hands_over pairs ⟨some 3, true, false, false⟩ [1, 2, 3] rfl

end Socket

end Srl
