import Srl.DictionarySearch
import Srl.LinkedList

namespace Srl

open SearchTree LinkedList

variable {Key Value : Type} {d : Dictionary Key Value} {t : BinTree Color} {order : List Ptr}

namespace Dictionary

/-- The list links of the entry at an address. -/
def links (d : Dictionary Key Value) (a : Ptr) : Option (Ptr × Ptr) := (d.heap a).map Entry.links

theorem entry_of_links {a p q : Ptr} (h : d.links a = some (p, q)) :
    ∃ e, d.heap a = some e ∧ e.prev = p ∧ e.next = q := by
  obtain ⟨e, he, hlinks⟩ := Option.map_eq_some_iff.mp h
  obtain ⟨hprev, hnext⟩ := Prod.mk.inj hlinks
  exact ⟨e, he, hprev, hnext⟩

/-- The entries in the order of their insertion form a doubly linked list. -/
structure Linked (d : Dictionary Key Value) (order : List Ptr) : Prop where
  segment : Segment d.links NULL order NULL
  first : d.first = order.head?.getD NULL
  last : d.last = order.getLast?.getD NULL
  live : ∀ a ∈ order, a ≠ NULL
  nodup : order.Nodup

/-- Both dictionaries have the same entries up to their list links. -/
structure SameTree (d d' : Dictionary Key Value) : Prop where
  node : ∀ a, (d'.heap a).map Entry.node = (d.heap a).map Entry.node
  payload : ∀ a, (d'.heap a).map Entry.payload = (d.heap a).map Entry.payload
  root : d'.root = d.root
  brk : d'.brk = d.brk

theorem SameTree.refl (d : Dictionary Key Value) : SameTree d d := ⟨fun _ => rfl, fun _ => rfl, rfl, rfl⟩

theorem SameTree.trans {d d' d'' : Dictionary Key Value} (h : SameTree d d')
    (h' : SameTree d' d'') : SameTree d d'' :=
  ⟨fun a => (h'.node a).trans (h.node a), fun a => (h'.payload a).trans (h.payload a),
    h'.root.trans h.root, h'.brk.trans h.brk⟩

theorem Linked.congr {d' : Dictionary Key Value} (hl : Linked d order)
    (same : ∀ a ∈ order, d'.links a = d.links a) (hf : d'.first = d.first) (hla : d'.last = d.last) :
    Linked d' order :=
  ⟨hl.segment.congr same, hf.trans hl.first, hla.trans hl.last, hl.live, hl.nodup⟩

theorem SameData.links {d' : Dictionary Key Value} (h : SameData d d') (a : Ptr) :
    d'.links a = d.links a := by
  have := congrArg (Option.map fun x : Ptr × Ptr × Key × Value × Int => (x.1, x.2.1)) (h.data a)
  rw [Option.map_map, Option.map_map] at this
  exact this

theorem SameData.payload {d' : Dictionary Key Value} (h : SameData d d') (a : Ptr) :
    (d'.heap a).map Entry.payload = (d.heap a).map Entry.payload := by
  have := congrArg (Option.map fun x : Ptr × Ptr × Key × Value × Int => x.2.2) (h.data a)
  rw [Option.map_map, Option.map_map] at this
  exact this

/-- A write to the list links of one entry. -/
theorem storeLinks_spec {p : Ptr} {e : Entry Key Value} (f : Entry Key Value → Entry Key Value)
    (hnode : ∀ e, (f e).node = e.node) (hpay : ∀ e, (f e).payload = e.payload)
    (hp : d.heap p = some e) :
    ∃ d', d.store p f = some d' ∧ SameTree d d' ∧ d'.first = d.first ∧ d'.last = d.last ∧
      d'.size = d.size ∧ d'.heap p = some (f e) ∧ ∀ a, a ≠ p → d'.heap a = d.heap a := by
  refine ⟨_, store_eq f hp, ⟨fun a => ?_, fun a => ?_, rfl, rfl⟩, rfl, rfl, rfl, by simp,
    fun a ha => by simp [Function.update_of_ne ha]⟩
  · by_cases ha : a = p
    · subst ha; simp [hp, hnode]
    · simp [Function.update_of_ne ha]
  · by_cases ha : a = p
    · subst ha; simp [hp, hpay]
    · simp [Function.update_of_ne ha]

/-- `_link` appends to the list. -/
theorem link_spec {entry : Ptr} {e : Entry Key Value} (hl : Linked d order)
    (he : d.heap entry = some e) (hz : entry ≠ NULL) (hnew : entry ∉ order)
    (hprev : e.prev = NULL) (hnext : e.next = NULL) :
    ∃ d', d.link entry = some d' ∧ SameTree d d' ∧ Linked d' (order ++ [entry]) ∧
      d'.size = d.size + 1 := by
  have hlive : ∀ a ∈ order ++ [entry], a ≠ NULL := by
    intro a ha
    rcases List.mem_append.mp ha with ha | ha
    · exact hl.live a ha
    · rwa [List.mem_singleton.mp ha]
  have hnodup : (order ++ [entry]).Nodup := by
    have := hl.nodup
    grind
  rcases List.eq_nil_or_concat order with rfl | ⟨us, z, rfl⟩
  · have hlast : d.last = NULL := hl.last
    refine ⟨{ d with first := entry, last := entry, size := d.size + 1 },
      by simp [link, hlast], ⟨fun _ => rfl, fun _ => rfl, rfl, rfl⟩,
      ⟨?_, rfl, rfl, hlive, hnodup⟩, rfl⟩
    simp [Dictionary.links, he, Entry.links, hprev, hnext]
  · rw [List.concat_eq_append] at *
    have hlast : d.last = z := by simpa using hl.last
    have hzz : z ≠ NULL := hl.live z (by simp)
    have hze : entry ≠ z := by rintro rfl; exact hnew (by simp)
    have hseg := (segment_append.mp hl.segment).2.1
    obtain ⟨ez, hez, hlz⟩ := Option.map_eq_some_iff.mp hseg
    obtain ⟨d₁, hd₁, hs₁, hf₁, hl₁, hsz₁, hz₁, hsame₁⟩ :=
      storeLinks_spec (fun e => { e with next := entry }) (fun _ => rfl) (fun _ => rfl) hez
    obtain ⟨d₂, hd₂, hs₂, hf₂, hl₂, hsz₂, he₂, hsame₂⟩ :=
      storeLinks_spec (fun e => { e with prev := z }) (fun _ => rfl) (fun _ => rfl)
        ((hsame₁ entry hze).trans he)
    refine ⟨{ d₂ with last := entry, size := d₂.size + 1 }, ?_, ?_, ⟨?_, ?_, by simp, hlive,
      hnodup⟩, by simp [hsz₂, hsz₁]⟩
    · simp [link, hlast, hzz, hd₁, hd₂]
    · have := hs₁.trans hs₂
      exact ⟨this.node, this.payload, this.root, this.brk⟩
    · refine segment_append.mpr ⟨hl.segment.setNext hl.nodup ?_ ?_, ?_⟩
      · intro a ha
        obtain rfl : z = a := by simpa using ha
        simp [Dictionary.links, hsame₂ z (Ne.symm hze), hz₁, hez, Entry.links]
      · intro a ha hne
        have haz : a ≠ z := by rintro rfl; simp at hne
        have hae : a ≠ entry := by rintro rfl; exact hnew ha
        simp [Dictionary.links, hsame₂ a hae, hsame₁ a haz]
      · simp [Dictionary.links, he₂, Entry.links, hnext]
    · rw [show ({ d₂ with last := entry, size := _ } : Dictionary Key Value).first = d₂.first from rfl,
        hf₂, hf₁, hl.first]
      cases us <;> simp

/-- First write of `_unlink`: the entry before gets another successor. -/
theorem setNext_spec {p q : Ptr} {xs : List Ptr} (q' : Ptr) (hs : Segment d.links p xs q) (hn : xs.Nodup)
    (hz : ∀ a ∈ xs, a ≠ NULL) :
    ∃ d', d.setNext (xs.getLast?.getD NULL) q' = some d' ∧
      SameTree d d' ∧ d'.first = d.first ∧ d'.last = d.last ∧ d'.size = d.size ∧
      Segment d'.links p xs q' ∧ ∀ a, a ∉ xs → d'.heap a = d.heap a := by
  rcases List.eq_nil_or_concat xs with rfl | ⟨us, z, rfl⟩
  · exact ⟨d, by simp [setNext], .refl d, rfl, rfl, rfl, trivial, fun _ _ => rfl⟩
  · rw [List.concat_eq_append] at *
    obtain ⟨e, he, hle⟩ := Option.map_eq_some_iff.mp (segment_append.mp hs).2.1
    obtain ⟨d', hd, hst, hf, hl, hsz, hez, hsame⟩ :=
      storeLinks_spec (fun e => { e with next := q' }) (fun _ => rfl) (fun _ => rfl) he
    refine ⟨d', by simpa [setNext, hz z (by simp)] using hd, hst, hf, hl, hsz, hs.setNext hn ?_ ?_,
      fun a ha => hsame a (by rintro rfl; exact ha (by simp))⟩
    · intro a ha
      obtain rfl : z = a := by simpa using ha
      simp [Dictionary.links, hez, he, Entry.links]
    · intro a _ hne
      simp [Dictionary.links, hsame a (by rintro rfl; simp at hne)]

/-- Second write of `_unlink`: the entry behind gets another predecessor. -/
theorem setPrev_spec {p q : Ptr} {xs : List Ptr} (p' : Ptr) (hs : Segment d.links p xs q) (hn : xs.Nodup)
    (hz : ∀ a ∈ xs, a ≠ NULL) :
    ∃ d', d.setPrev (xs.head?.getD NULL) p' = some d' ∧
      SameTree d d' ∧ d'.first = d.first ∧ d'.last = d.last ∧ d'.size = d.size ∧
      Segment d'.links p' xs q ∧ ∀ a, a ∉ xs → d'.heap a = d.heap a := by
  cases xs with
  | nil => exact ⟨d, by simp [setPrev], .refl d, rfl, rfl, rfl, trivial, fun _ _ => rfl⟩
  | cons z us =>
    obtain ⟨e, he, hle⟩ := Option.map_eq_some_iff.mp hs.1
    obtain ⟨d', hd, hst, hf, hl, hsz, hez, hsame⟩ :=
      storeLinks_spec (fun e => { e with prev := p' }) (fun _ => rfl) (fun _ => rfl) he
    refine ⟨d', by simpa [setPrev, hz z (by simp)] using hd, hst, hf, hl, hsz, hs.setPrev hn ?_ ?_,
      fun a ha => hsame a (by rintro rfl; exact ha (by simp))⟩
    · intro a ha
      obtain rfl : z = a := by simpa using ha
      simp [Dictionary.links, hez, he, Entry.links]
    · intro a _ hne
      simp [Dictionary.links, hsame a (by rintro rfl; simp at hne)]

/-- `_unlink` takes an entry out of the list. -/
theorem unlink_spec {xs ys : List Ptr} {entry : Ptr} (hl : Linked d (xs ++ entry :: ys)) :
    ∃ d', d.unlink entry = some d' ∧ SameTree d d' ∧ Linked d' (xs ++ ys) ∧
      d'.size = d.size - 1 := by
  have hn := List.nodup_append'.mp hl.nodup
  obtain ⟨hnx, hny, hdis⟩ := hn
  obtain ⟨hey, hny⟩ := List.nodup_cons.mp hny
  have hex : entry ∉ xs := fun h => hdis h (by simp)
  obtain ⟨hsx, hlinks, hsy⟩ := segment_append.mp hl.segment
  obtain ⟨e, he, hprev, hnext⟩ := entry_of_links hlinks
  obtain ⟨d₁, hd₁, hs₁, hf₁, hl₁, hsz₁, hsx₁, hsame₁⟩ :=
    setNext_spec e.next hsx hnx fun a ha => hl.live a (by simp [ha])
  have he₁ := (hsame₁ entry hex).trans he
  have hsy₁ : Segment d₁.links entry ys NULL := hsy.congr fun a ha => by
    simp [Dictionary.links, hsame₁ a fun h => hdis h (by simp [ha])]
  obtain ⟨d₂, hd₂, hs₂, hf₂, hl₂, hsz₂, hsy₂, hsame₂⟩ :=
    setPrev_spec e.prev hsy₁ hny fun a ha => hl.live a (by simp [ha])
  have he₂ := (hsame₂ entry hey).trans he₁
  rw [← hprev] at hd₁
  rw [← hnext] at hd₂
  have hfirst : d.first = (xs ++ entry :: ys).head?.getD NULL := hl.first
  have hlast : d.last = (xs ++ entry :: ys).getLast?.getD NULL := hl.last
  let first := if d.first = entry then e.next else d.first
  let last := if d.last = entry then e.prev else d.last
  refine ⟨{ d₂ with first := first, last := last, size := d.size - 1 }, ?_, ?_,
    ⟨?_, ?_, ?_, fun a ha => hl.live a (by simp at ha ⊢; tauto), ?_⟩, rfl⟩
  · have hf : d₂.first = d.first := hf₂.trans hf₁
    have hl : d₂.last = d.last := hl₂.trans hl₁
    have hsz : d₂.size = d.size := hsz₂.trans hsz₁
    simp only [unlink, he, hd₁, he₁, hd₂, he₂, hf, hl, hsz, Option.bind_eq_bind, Option.bind_some, first,
      last]
  · have := hs₁.trans hs₂
    exact ⟨this.node, this.payload, this.root, this.brk⟩
  · refine segment_append.mpr ⟨?_, ?_⟩
    · rw [← hnext]
      exact hsx₁.congr fun a ha => by
        simp [Dictionary.links, hsame₂ a fun h => hdis ha (by simp [h])]
    · rw [← hprev]
      exact hsy₂
  · cases xs with
    | nil => simp [first, hfirst, hnext]
    | cons b xs =>
      have : b ≠ entry := by rintro rfl; exact hex (by simp)
      simp [first, hfirst, this]
  · rcases List.eq_nil_or_concat ys with rfl | ⟨us, z, rfl⟩
    · simp [last, hlast, hprev]
    · have : z ≠ entry := by rintro rfl; exact hey (by simp)
      simp [last, hlast, this, List.getLast?_cons]
  · exact List.nodup_append'.mpr ⟨hnx, hny, fun a hx hy => hdis hx (by simp [hy])⟩

end Dictionary

end Srl
