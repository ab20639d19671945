import Srl.Numerals
import Srl.Uri

namespace Srl

open Bytes

namespace Bytes

theorem ofText_of_ne {s : Bytes} {len : Nat} (h : len ≠ 0) : ofText s len = s.take len := if_neg h

theorem left_eq {s text rest : Bytes} (hs : s = text ++ rest) (ht : text ≠ []) : s.left text.length = text := by
  have hz : text.length ≠ 0 := by simpa using ht
  have hlen : ¬s.length < text.length := by
    rw [hs, List.length_append]
    omega
  rw [left, if_neg hlen, ofText_of_ne hz, hs, List.take_left']
  rfl

theorem findText_slashes {text rest : Bytes} (ht : ∀ x ∈ text, x ≠ 47 ∧ x ≠ 0) :
    (text ++ 47 :: 47 :: rest).findText (bytes "//") 0 = some text.length := by
  have hcs : cstr (text ++ 47 :: 47 :: rest) = text ++ 47 :: 47 :: cstr rest := by
    rw [cstr_append_of_ne fun x hx => (ht x hx).2]
    simp [cstr]
  have hidx : ∀ text : Bytes, (∀ x ∈ text, x ≠ 47 ∧ x ≠ 0) →
      (text ++ 47 :: 47 :: cstr rest).tails.findIdx? ((bytes "//").isPrefixOf ·) = some text.length := by
    intro text
    induction text with
    | nil =>
      intro _
      rw [List.nil_append, List.tails_cons, List.findIdx?_cons, if_pos (by rfl)]
      rfl
    | cons c text ih =>
      intro h
      have hslashes : bytes "//" = [47, 47] := rfl
      have hc : ¬(bytes "//").isPrefixOf (c :: (text ++ 47 :: 47 :: cstr rest)) = true := by
        rw [hslashes, List.isPrefixOf_cons_cons, Bool.and_eq_true, beq_iff_eq]
        intro hp
        exact (h c (by simp)).1 hp.1.symm
      rw [List.cons_append, List.tails_cons, List.findIdx?_cons, if_neg hc,
        ih fun x hx => h x (by simp [hx])]
      rfl
  rw [findText, List.drop_zero, hcs, hidx text ht]
  simp

end Bytes

namespace URI

/-- No delimiter of a URI. -/
def Plain (c : UInt8) : Prop := c ≠ 0 ∧ c ≠ 58 ∧ c ≠ 47 ∧ c ≠ 63 ∧ c ≠ 35 ∧ c ≠ 64

/-- A part of a canonical text. -/
def Part (s : Bytes) : Prop := s ≠ [] ∧ ∀ c ∈ s, Plain c

instance : DecidablePred Plain := fun c => inferInstanceAs (Decidable (c ≠ 0 ∧ _))
instance : DecidablePred Part := fun s => inferInstanceAs (Decidable (s ≠ [] ∧ ∀ c ∈ s, Plain c))

/-- The parts of a canonical URI text; the path is the one behind the `/`. -/
structure Canonical where
  scheme : Bytes
  user : Option Bytes
  host : Bytes
  port : Option Bytes
  path : Bytes
  query : Option Bytes
  fragment : Option Bytes
  scheme_part : Part scheme
  user_part : ∀ s ∈ user, Part s
  host_part : Part host
  port_decimal : ∀ s ∈ port, Decimal s ∧ number 10 (digitsOf 10 s) ≤ 65535
  path_chars : ∀ c ∈ path, Plain c ∨ c = 47
  query_part : ∀ s ∈ query, Part s
  fragment_part : ∀ s ∈ fragment, Part s

/-- An optional part in front of its delimiter. -/
def before (s : Option Bytes) (c : UInt8) : Bytes := s.elim [] (· ++ [c])

/-- An optional part behind its delimiter. -/
def behind (c : UInt8) (s : Option Bytes) : Bytes := s.elim [] (c :: ·)

@[simp] theorem before_none (c : UInt8) : before none c = [] := rfl
@[simp] theorem before_some (s : Bytes) (c : UInt8) : before (some s) c = s ++ [c] := rfl
@[simp] theorem behind_none (c : UInt8) : behind c none = [] := rfl
@[simp] theorem behind_some (c : UInt8) (s : Bytes) : behind c (some s) = c :: s := rfl

namespace Canonical

def authority (t : Canonical) : Bytes := before t.user 64 ++ t.host ++ behind 58 t.port

/-- The path, the query and the fragment. -/
def place (t : Canonical) : Bytes := 47 :: t.path ++ behind 63 t.query ++ behind 35 t.fragment

def text (t : Canonical) : Bytes := t.scheme ++ 58 :: 47 :: 47 :: (t.authority ++ t.place)

/-- Where the path begins. -/
def start (t : Canonical) : Nat := t.scheme.length + 3 + t.authority.length

variable (t : Canonical)

theorem port_chars {s : Bytes} (h : s ∈ t.port) {c : UInt8} (hc : c ∈ s) : Plain c := by
  have hd := (t.port_decimal s h).1.digits c hc
  have hne : ∀ x : UInt8, x < 48 ∨ 57 < x → c ≠ x := by
    intro x hx he
    rw [← he, UInt8.lt_iff_toNat_lt, UInt8.lt_iff_toNat_lt] at hx
    rw [UInt8.le_iff_toNat_le, UInt8.le_iff_toNat_le] at hd
    omega
  exact ⟨hne 0 (by decide), hne 58 (by decide), hne 47 (by decide), hne 63 (by decide), hne 35 (by decide),
    hne 64 (by decide)⟩

theorem drop_scheme : t.text.drop (t.scheme.length + 1) = 47 :: 47 :: (t.authority ++ t.place) := by
  have htext : t.text = (t.scheme ++ [58]) ++ 47 :: 47 :: (t.authority ++ t.place) := by simp [text]
  rw [htext]
  exact List.drop_left' (by simp)

theorem drop_authority : t.text.drop (t.scheme.length + 3) = t.authority ++ t.place := by
  have h : t.scheme.length + 3 = t.scheme.length + 1 + 2 := by omega
  rw [h, ← List.drop_drop, t.drop_scheme]
  rfl

theorem drop_start : t.text.drop t.start = t.place := by
  rw [start, ← List.drop_drop, t.drop_authority, List.drop_left]

theorem start_lt : t.start < t.text.length := by
  have h := congrArg List.length t.drop_start
  rw [List.length_drop] at h
  simp only [place, List.length_append, List.length_cons] at h
  omega

theorem parseScheme_text (u : URI) :
    u.parseScheme t.text 0 = ({ u with scheme := t.scheme }, (t.scheme.length : Int) + 1) := by
  have hplain := t.scheme_part.2
  have hcolon : t.text.find 58 0 = some t.scheme.length := by
    have hs : t.text.drop 0 = t.scheme ++ 58 :: 47 :: 47 :: (t.authority ++ t.place) := rfl
    rw [find_eq hs (by decide) fun x hx => ⟨(hplain x hx).2.1, (hplain x hx).1⟩, Nat.zero_add]
  have hslash : t.text.find 47 0 = some (t.scheme.length + 1) := by
    have hs : t.text.drop 0 = (t.scheme ++ [58]) ++ 47 :: 47 :: (t.authority ++ t.place) := by simp [text]
    have hchars : ∀ x ∈ t.scheme ++ [58], x ≠ 47 ∧ x ≠ 0 := by
      intro x hx
      obtain hx | rfl : x ∈ t.scheme ∨ x = 58 := by simpa using hx
      · exact ⟨(hplain x hx).2.2.1, (hplain x hx).1⟩
      · decide
    rw [find_eq hs (by decide) hchars]
    simp
  have hleft : t.text.left t.scheme.length = t.scheme := left_eq rfl t.scheme_part.1
  unfold parseScheme
  simp only [hcolon, hslash, position_some]
  rw [if_neg (by omega), if_pos (by omega), Int.toNat_natCast, hleft]

theorem place_chars {x : UInt8} (h : x ∈ t.place) : x ≠ 0 ∧ x ≠ 58 ∧ x ≠ 64 := by
  have hplain : ∀ {x}, Plain x → x ≠ 0 ∧ x ≠ 58 ∧ x ≠ 64 := fun h => ⟨h.1, h.2.1, h.2.2.2.2.2⟩
  have hquery := t.query_part
  have hfragment := t.fragment_part
  rw [place, List.mem_append, List.mem_append, List.mem_cons] at h
  obtain ((rfl | h) | h) | h := h
  · decide
  · obtain h | rfl := t.path_chars x h
    · exact hplain h
    · decide
  · cases hq : t.query with
    | none => simp [hq] at h
    | some s =>
      obtain rfl | h : x = 63 ∨ x ∈ s := by simpa [hq] using h
      · decide
      · exact hplain ((hquery s hq).2 x h)
  · cases hf : t.fragment with
    | none => simp [hf] at h
    | some s =>
      obtain rfl | h : x = 35 ∨ x ∈ s := by simpa [hf] using h
      · decide
      · exact hplain ((hfragment s hf).2 x h)

theorem port_plain {x : UInt8} (h : x ∈ behind 58 t.port) : x ≠ 0 ∧ x ≠ 47 ∧ x ≠ 64 := by
  cases hp : t.port with
  | none => simp [hp] at h
  | some s =>
    obtain rfl | h : x = 58 ∨ x ∈ s := by simpa [hp] using h
    · decide
    · obtain ⟨h₀, -, h₁, -, -, h₂⟩ := t.port_chars hp h
      exact ⟨h₀, h₁, h₂⟩

theorem parseUser_text (u : URI) :
    u.parseUser t.text ((t.scheme.length : Int) + 1) ((t.scheme.length : Int) + 3) t.start true =
      some ({ u with user := t.user.getD u.user },
        (t.scheme.length : Int) + 3 + (before t.user 64).length) := by
  have hnat : ((t.scheme.length : Int) + 1).toNat = t.scheme.length + 1 := by omega
  cases hu : t.user with
  | none =>
    have hnone : t.text.find 64 (t.scheme.length + 1) = none := by
      apply find_eq_none (by decide)
      rw [t.drop_scheme, authority, hu, before_none, List.nil_append]
      intro x hx
      simp only [List.mem_cons, List.mem_append] at hx
      obtain rfl | rfl | (hx | hx) | hx := hx
      · decide
      · decide
      · exact (t.host_part.2 x hx).2.2.2.2.2
      · exact (t.port_plain hx).2.2
      · exact (t.place_chars hx).2.2
    unfold parseUser
    simp [hnat, hnone]
  | some s =>
    have hpart := t.user_part s hu
    have hdrop : t.text.drop (t.scheme.length + 1) =
        (47 :: 47 :: s) ++ 64 :: (t.host ++ behind 58 t.port ++ t.place) := by
      rw [t.drop_scheme, authority, hu]
      simp
    have hfind : t.text.find 64 (t.scheme.length + 1) = some (t.scheme.length + 1 + (47 :: 47 :: s).length) := by
      apply find_eq hdrop (by decide)
      intro x hx
      simp only [List.mem_cons] at hx
      obtain rfl | rfl | hx := hx
      · decide
      · decide
      · exact ⟨(hpart.2 x hx).2.2.2.2.2, (hpart.2 x hx).1⟩
    have hauth : t.text.drop (t.scheme.length + 3) = s ++ 64 :: (t.host ++ behind 58 t.port ++ t.place) := by
      rw [t.drop_authority, authority, hu]
      simp
    have hstart : t.start = t.scheme.length + 3 + (s.length + 1 + t.host.length + (behind 58 t.port).length) := by
      simp only [start, authority, hu, before_some, List.length_append, List.length_cons, List.length_nil]
    have hbetween : between t.text ((t.scheme.length : Int) + 3)
        ((t.scheme.length + 1 + (47 :: 47 :: s).length : Nat) : Int) = some s := by
      apply between_eq hauth hpart.1
      · omega
      · simp only [List.length_cons]
        omega
    unfold parseUser
    simp only [hnat, hfind, position_some]
    rw [if_pos (by simp only [List.length_cons]; omega), hbetween]
    simp only [Option.bind_eq_bind, Option.bind_some, part, if_true, Option.getD_some, before_some,
      Option.some.injEq, Prod.mk.injEq, true_and, List.length_cons, List.length_append, List.length_nil]
    omega

/-- The number that stands for a port. -/
def portValue (s : Bytes) : UInt32 := (int s 10).toUInt32

theorem portValue_eq {s : Bytes} (h : s ∈ t.port) :
    0 < portValue s ∧ valUnsigned (portValue s) = s := by
  obtain ⟨hs, hbound⟩ := t.port_decimal s h
  have hpos := hs.pos
  have hdigits : ∀ c ∈ s, IsDigit 10 c ∧ c < 71 := fun c hc =>
    ⟨isDigit_ten (hs.digits c hc), UInt8.lt_of_le_of_lt (hs.digits c hc).2 (by decide)⟩
  have hmin : min (number 10 (digitsOf 10 s) : Int) (2 ^ 63 - 1) = number 10 (digitsOf 10 s) := by omega
  have hnum : (portValue s).toNat = number 10 (digitsOf 10 s) := by
    rw [portValue, int, (strtol_digits hs.nonempty hdigits).1, hmin]
    show (BitVec.ofInt 32 (number 10 (digitsOf 10 s) : Int)).toNat = _
    rw [BitVec.toNat_ofInt]
    omega
  refine ⟨?_, ?_⟩
  · rw [UInt32.lt_iff_toNat_lt, hnum]
    exact hpos
  · rw [valUnsigned, valLoop_decimal hs hnum (by rw [hnum]; omega), List.append_nil]

theorem find_slashes : t.text.findText (bytes "//") 0 = some (t.scheme.length + 1) := by
  have htext : t.text = (t.scheme ++ [58]) ++ 47 :: 47 :: (t.authority ++ t.place) := by simp [text]
  have hchars : ∀ x ∈ t.scheme ++ [58], x ≠ 47 ∧ x ≠ 0 := by
    intro x hx
    obtain hx | rfl : x ∈ t.scheme ∨ x = 58 := by simpa using hx
    · exact ⟨(t.scheme_part.2 x hx).2.2.1, (t.scheme_part.2 x hx).1⟩
    · decide
  rw [htext, findText_slashes hchars]
  simp

theorem authority_chars {x : UInt8} (hx : x ∈ t.authority) : x ≠ 47 ∧ x ≠ 0 := by
  rw [authority, List.mem_append, List.mem_append] at hx
  obtain (hx | hx) | hx := hx
  · cases hu : t.user with
    | none => simp [hu] at hx
    | some s =>
      obtain hx | rfl : x ∈ s ∨ x = 64 := by simpa [hu] using hx
      · exact ⟨((t.user_part s hu).2 x hx).2.2.1, ((t.user_part s hu).2 x hx).1⟩
      · decide
  · exact ⟨(t.host_part.2 x hx).2.2.1, (t.host_part.2 x hx).1⟩
  · exact ⟨(t.port_plain hx).2.1, (t.port_plain hx).1⟩

/-- The slash behind the authority. -/
theorem find_slash : t.text.find 47 (t.scheme.length + 3) = some t.start := by
  have hdrop : t.text.drop (t.scheme.length + 3) =
      t.authority ++ 47 :: (t.path ++ behind 63 t.query ++ behind 35 t.fragment) := by
    rw [t.drop_authority, place]
    simp
  exact find_eq hdrop (by decide) fun x hx => t.authority_chars hx

theorem parseAuthority_text (u : URI) :
    u.parseAuthority t.text ((t.scheme.length : Int) + 1) true =
      some ({ u with user := t.user.getD u.user, host := t.host, port := t.port.elim u.port portValue },
        (t.start : Int)) := by
  have hlt := t.start_lt
  have hspos : ((t.scheme.length + 1 : Nat) : Int) + 2 = (t.scheme.length : Int) + 3 := by omega
  have hnat : ((t.scheme.length : Int) + 3).toNat = t.scheme.length + 3 := by omega
  obtain ⟨k, hk⟩ : ∃ k, t.scheme.length + 3 + (before t.user 64).length = k := ⟨_, rfl⟩
  have hk' : (t.scheme.length : Int) + 3 + (before t.user 64).length = k := by omega
  have hstart : t.start = k + t.host.length + (behind 58 t.port).length := by
    simp only [start, authority, List.length_append]
    omega
  have hdrop : t.text.drop k = t.host ++ (behind 58 t.port ++ t.place) := by
    rw [← hk, ← List.drop_drop, t.drop_authority, authority, List.append_assoc, List.append_assoc,
      List.drop_left]
  unfold parseAuthority parsePort
  simp only [t.find_slashes, position_some, hspos, hnat, t.find_slash]
  rw [if_neg (by omega), if_neg (by omega), t.parseUser_text, hk']
  simp only [Option.bind_eq_bind, Option.bind_some, Int.toNat_natCast]
  cases hp : t.port with
  | none =>
    have hnone : t.text.find 58 k = none := by
      apply find_eq_none (by decide)
      rw [hdrop, hp, behind_none, List.nil_append]
      intro x hx
      obtain hx | hx := List.mem_append.mp hx
      · exact (t.host_part.2 x hx).2.1
      · exact (t.place_chars hx).2.1
    have hbetween : between t.text (k : Int) (t.start : Int) = some t.host := by
      apply between_eq hdrop t.host_part.1 rfl
      rw [hp, behind_none, List.length_nil] at hstart
      omega
    simp [hnone, hbetween, part, hlt]
  | some s =>
    have hpart := t.port_decimal s hp
    have hdrop' : t.text.drop k = t.host ++ 58 :: (s ++ t.place) := by rw [hdrop, hp]; simp
    have hfind : t.text.find 58 k = some (k + t.host.length) := by
      apply find_eq hdrop' (by decide)
      intro x hx
      exact ⟨(t.host_part.2 x hx).2.1, (t.host_part.2 x hx).1⟩
    have hdrop'' : t.text.drop (k + t.host.length + 1) = s ++ t.place := by
      rw [Nat.add_assoc, ← List.drop_drop, hdrop', ← List.drop_drop, List.drop_left]
      rfl
    rw [hp, behind_some, List.length_cons] at hstart
    have hport : between t.text (((k + t.host.length : Nat) : Int) + 1) (t.start : Int) = some s := by
      apply between_eq hdrop'' hpart.1.nonempty
      · omega
      · omega
    have hhost : between t.text (k : Int) ((k + t.host.length : Nat) : Int) = some t.host := by
      apply between_eq hdrop t.host_part.1 rfl
      omega
    simp only [hfind, position_some]
    rw [if_neg (by omega), hport]
    simp only [Option.bind_some, hhost, part, if_true, Option.elim_some]
    rw [if_pos (by omega)]
    rfl

theorem path_plain {x : UInt8} (h : x ∈ 47 :: t.path) : x ≠ 0 ∧ x ≠ 63 ∧ x ≠ 35 := by
  obtain rfl | h := List.mem_cons.mp h
  · decide
  · obtain h | rfl := t.path_chars x h
    · exact ⟨h.1, h.2.2.2.1, h.2.2.2.2.1⟩
    · decide

theorem query_plain {x : UInt8} (h : x ∈ behind 63 t.query) : x ≠ 0 ∧ x ≠ 35 := by
  cases hq : t.query with
  | none => simp [hq] at h
  | some s =>
    obtain rfl | h : x = 63 ∨ x ∈ s := by simpa [hq] using h
    · decide
    · obtain ⟨h₀, -, -, -, h₁, -⟩ := (t.query_part s hq).2 x h
      exact ⟨h₀, h₁⟩

theorem find_query : t.text.find 63 t.start = t.query.map fun _ => t.start + t.path.length + 1 := by
  cases hq : t.query with
  | none =>
    apply find_eq_none (by decide)
    rw [t.drop_start, place, hq, behind_none, List.append_nil]
    intro x hx
    obtain hx | hx := List.mem_append.mp hx
    · exact (t.path_plain hx).2.1
    · cases hf : t.fragment with
      | none => simp [hf] at hx
      | some s =>
        obtain rfl | hx : x = 35 ∨ x ∈ s := by simpa [hf] using hx
        · decide
        · exact ((t.fragment_part s hf).2 x hx).2.2.2.1
  | some q =>
    have hdrop : t.text.drop t.start = (47 :: t.path) ++ 63 :: (q ++ behind 35 t.fragment) := by
      rw [t.drop_start, place, hq]
      simp
    rw [find_eq hdrop (by decide) fun x hx => ⟨(t.path_plain hx).2.1, (t.path_plain hx).1⟩]
    rfl

theorem find_fragment : t.text.find 35 t.start =
    t.fragment.map fun _ => t.start + t.path.length + 1 + (behind 63 t.query).length := by
  have hchars : ∀ x ∈ (47 :: t.path) ++ behind 63 t.query, x ≠ 35 ∧ x ≠ 0 := by
    intro x hx
    obtain hx | hx := List.mem_append.mp hx
    · exact ⟨(t.path_plain hx).2.2, (t.path_plain hx).1⟩
    · exact ⟨(t.query_plain hx).2, (t.query_plain hx).1⟩
  cases hf : t.fragment with
  | none =>
    apply find_eq_none (by decide)
    rw [t.drop_start, place, hf, behind_none, List.append_nil]
    exact fun x hx => (hchars x hx).1
  | some f =>
    have hdrop : t.text.drop t.start = ((47 :: t.path) ++ behind 63 t.query) ++ 35 :: f := by
      rw [t.drop_start, place, hf]
      simp
    rw [find_eq hdrop (by decide) hchars, Option.map_some, List.length_append, List.length_cons]
    congr 1
    omega

theorem length_text : t.text.length =
    t.start + t.path.length + 1 + (behind 63 t.query).length + (behind 35 t.fragment).length := by
  have hlt := t.start_lt
  have h := congrArg List.length t.drop_start
  rw [List.length_drop] at h
  simp only [place, List.length_append, List.length_cons] at h
  omega

theorem drop_path : t.text.drop (t.start + t.path.length + 1) = behind 63 t.query ++ behind 35 t.fragment := by
  rw [Nat.add_assoc, ← List.drop_drop, t.drop_start, place, List.append_assoc]
  exact List.drop_left' rfl

/-- What `_parsePath` finds: with a fragment the path keeps the query, and the query the fragment. -/
theorem parsePath_text (u : URI) (hq : u.query = []) (hf : u.fragment = []) :
    u.parsePath t.text t.start true =
      some { u with
        path := 47 :: t.path ++ (if t.fragment = none then [] else behind 63 t.query)
        query := t.query.elim [] (· ++ behind 35 t.fragment)
        fragment := t.fragment.getD [] } := by
  have hstart : t.text.drop t.start = 47 :: t.path ++ (behind 63 t.query ++ behind 35 t.fragment) := by
    rw [t.drop_start, place, List.append_assoc]
  have hpath := t.drop_path
  have hlen := t.length_text
  have hfindq := t.find_query
  have hfindf := t.find_fragment
  obtain ⟨k, hk⟩ : ∃ k, t.start + t.path.length + 1 = k := ⟨_, rfl⟩
  rw [hk] at hpath hlen hfindq hfindf
  have hbetween : between t.text t.start k = some (47 :: t.path) := by
    apply between_eq hstart (by simp) rfl
    rw [List.length_cons]
    omega
  have hpos : 0 < k := by omega
  unfold parsePath parseQuery parseFragment
  cases hquery : t.query with
  | none =>
    rw [hquery, Option.map_none] at hfindq
    cases hfragment : t.fragment with
    | none =>
      rw [hfragment, Option.map_none] at hfindf
      rw [hquery, hfragment] at hlen
      have hend : t.text.length = k := by simpa using hlen
      simp [hfindq, hfindf, hend, hbetween, part, hq, hf]
    | some f =>
      rw [hfragment, hquery, Option.map_some, behind_none, List.length_nil, Nat.add_zero] at hfindf
      rw [hquery, hfragment] at hpath
      have hdrop : t.text.drop (k + 1) = f := by
        rw [← List.drop_drop, hpath]
        simp
      have hf₁ : between t.text ((k : Int) + 1) t.text.length = some f :=
        between_end hdrop (t.fragment_part f hfragment).1 rfl
      have hle : ¬(k : Int) < -1 := by omega
      simp [hfindq, hfindf, hpos, hle, hbetween, hf₁, part, hq]
  | some q =>
    have hqne := (t.query_part q hquery).1
    rw [hquery, Option.map_some] at hfindq
    have hqpos : 0 < q.length := List.length_pos_of_ne_nil hqne
    cases hfragment : t.fragment with
    | none =>
      rw [hfragment, Option.map_none] at hfindf
      rw [hquery, hfragment] at hpath
      have hdrop : t.text.drop (k + 1) = q := by
        rw [← List.drop_drop, hpath]
        simp
      have hq₁ : between t.text ((k : Int) + 1) t.text.length = some q := between_end hdrop hqne rfl
      have hle : ¬(k : Int) < -1 := by omega
      simp [hfindq, hfindf, hle, hbetween, hq₁, queryPart, part, hf]
    | some f =>
      rw [hfragment, hquery, Option.map_some, behind_some, List.length_cons] at hfindf
      rw [hquery, hfragment] at hpath hstart
      simp only [behind_some] at hpath hstart
      have hdropq : t.text.drop (k + 1) = q ++ 35 :: f := by
        rw [← List.drop_drop, hpath]
        simp
      have hq₁ : between t.text ((k : Int) + 1) t.text.length = some (q ++ 35 :: f) :=
        between_end hdropq (by simp) rfl
      have hdropf : t.text.drop (k + (q.length + 1) + 1) = f := by
        rw [Nat.add_assoc, ← List.drop_drop, hpath]
        simp
      have hf₁ : between t.text (((k + (q.length + 1) : Nat) : Int) + 1) t.text.length = some f :=
        between_end hdropf (t.fragment_part f hfragment).1 rfl
      have hdropp : t.text.drop t.start = (47 :: t.path ++ 63 :: q) ++ 35 :: f := by
        rw [hstart]
        simp
      have hp₁ : between t.text t.start ((k + (q.length + 1) : Nat) : Int) = some (47 :: t.path ++ 63 :: q) := by
        apply between_eq hdropp (by simp) rfl
        simp only [List.length_append, List.length_cons]
        omega
      have hgt : ((k + (q.length + 1) : Nat) : Int) > k := by omega
      have hle : ¬((k : Int) + 1 > ((k + (q.length + 1) : Nat) : Int)) := by omega
      have hk₀ : 0 ≤ (k : Int) := by omega
      have hk₁ : 0 ≤ ((k + (q.length + 1) : Nat) : Int) := by omega
      simp only [hfindq, hfindf, position_some, Int.toNat_natCast, if_pos hk₀, hq₁, Option.bind_eq_bind,
        Option.bind_some, if_pos hgt, hp₁, part, queryPart, if_true, if_pos hk₁, if_neg hle, hf₁]
      simp

/-- The parts that `set` finds in a canonical text. -/
theorem set_text (u : URI) {m : List (Bytes × Bytes)} (hu : Dictionary.Represents u.query_map m) :
    ∃ d, Dictionary.Represents d [] ∧
      u.set t.text true = some (generateString
        { query_map := d, str := [], scheme := t.scheme, user := t.user.getD [], host := t.host,
          path := 47 :: t.path ++ (if t.fragment = none then [] else behind 63 t.query),
          query := t.query.elim [] (· ++ behind 35 t.fragment), fragment := t.fragment.getD [],
          port := t.port.elim 0 portValue }) := by
  obtain ⟨d, hrun, hd⟩ := Dictionary.clear_spec hu
  refine ⟨d, hd, ?_⟩
  unfold set
  simp only [hrun, t.parseScheme_text, t.parseAuthority_text, Option.bind_eq_bind, Option.bind_some]
  rw [if_pos (by omega), t.parsePath_text _ rfl rfl]
  rfl

/-- The text made of the parts that were found. -/
theorem str_text (d : Dictionary Bytes Bytes) :
    (generateString
      { query_map := d, str := [], scheme := t.scheme, user := t.user.getD [], host := t.host,
        path := 47 :: t.path ++ (if t.fragment = none then [] else behind 63 t.query),
        query := t.query.elim [] (· ++ behind 35 t.fragment), fragment := t.fragment.getD [],
        port := t.port.elim 0 portValue }).str =
      t.scheme ++ 58 :: 47 :: 47 :: (t.authority ++ (47 :: t.path ++
        ((if t.fragment = none then [] else behind 63 t.query) ++
          (behind 63 (t.query.map (· ++ behind 35 t.fragment)) ++ behind 35 t.fragment)))) := by
  have huser : (if t.user.getD [] = [] then [] else t.user.getD [] ++ [64]) = before t.user 64 := by
    cases hu : t.user with
    | none => rfl
    | some s => exact if_neg (t.user_part s hu).1
  have hport : (if 0 < t.port.elim 0 portValue then 58 :: valUnsigned (t.port.elim 0 portValue) else []) =
      behind 58 t.port := by
    cases hp : t.port with
    | none => rfl
    | some s =>
      have hvalue := t.portValue_eq hp
      rw [Option.elim_some, if_pos hvalue.1, hvalue.2]
      rfl
  have hquery : (if t.query.elim [] (· ++ behind 35 t.fragment) = [] then []
      else 63 :: t.query.elim [] (· ++ behind 35 t.fragment)) =
      behind 63 (t.query.map (· ++ behind 35 t.fragment)) := by
    cases hq : t.query with
    | none => rfl
    | some s => exact if_neg (by simp [(t.query_part s hq).1])
  have hfragment : (if t.fragment.getD [] = [] then [] else 35 :: t.fragment.getD []) =
      behind 35 t.fragment := by
    cases hf : t.fragment with
    | none => rfl
    | some s => exact if_neg (t.fragment_part s hf).1
  have hslashes : bytes "//" = [47, 47] := rfl
  simp only [generateString, tail, huser, hport, hquery, hfragment, hslashes, authority]
  rw [if_neg t.scheme_part.1, if_neg t.host_part.1, if_neg (by simp)]
  simp only [List.append_assoc, List.cons_append, List.nil_append]

end Canonical

/-- The text that `asString` returns after `set(text, true)`. -/
def reread (u : URI) (text : Bytes) : Option Bytes := do
  let u ← u.set text true
  let (str, _) ← u.asString
  some str

/-- A canonical text comes back unless it has both a query and a fragment. -/
theorem reread_iff (t : Canonical) (u : URI) (m : List (Bytes × Bytes))
    (hu : Dictionary.Represents u.query_map m) :
    u.reread t.text = some t.text ↔ ¬(t.query.isSome ∧ t.fragment.isSome) := by
  obtain ⟨d, hd, hset⟩ := t.set_text u hu
  have hsize : d.size = 0 := Dictionary.size_spec hd
  have hread : u.reread t.text = some (t.scheme ++ 58 :: 47 :: 47 :: (t.authority ++ (47 :: t.path ++
        ((if t.fragment = none then [] else behind 63 t.query) ++
          (behind 63 (t.query.map (· ++ behind 35 t.fragment)) ++ behind 35 t.fragment))))) := by
    unfold reread
    rw [hset, ← t.str_text d]
    simp only [Option.bind_eq_bind, Option.bind_some, asString, generateString]
    rw [if_pos hsize]
    rfl
  have htext : t.text = t.scheme ++ 58 :: 47 :: 47 :: (t.authority ++ (47 :: t.path ++
      (behind 63 t.query ++ behind 35 t.fragment))) := by
    rw [Canonical.text, Canonical.place, List.append_assoc]
  have hcancel : u.reread t.text = some t.text ↔
      (if t.fragment = none then [] else behind 63 t.query) ++
        behind 63 (t.query.map (· ++ behind 35 t.fragment)) = behind 63 t.query := by
    rw [hread, htext, Option.some.injEq, List.append_cancel_left_eq, List.cons.injEq, List.cons.injEq,
      List.cons.injEq, List.append_cancel_left_eq, List.append_cancel_left_eq, ← List.append_assoc,
      List.append_cancel_right_eq]
    simp
  rw [hcancel]
  cases hq : t.query with
  | none => simp
  | some q =>
    cases hf : t.fragment with
    | none => simp
    | some f =>
      have hlen : ¬(63 :: q ++ 63 :: (q ++ 35 :: f)).length = (63 :: q).length := by
        simp only [List.length_append, List.length_cons]
        omega
      simp only [Option.map_some, behind_some, reduceCtorEq, if_false, Option.isSome_some, and_self,
        not_true_eq_false, iff_false]
      exact fun h => hlen (congrArg List.length h)

/-- `http://h/p?q#f`. -/
def both : Canonical :=
  ⟨bytes "http", none, bytes "h", none, bytes "p", some (bytes "q"), some (bytes "f"), by decide, by simp,
    by decide, by simp, by decide, by decide, by decide⟩

theorem reread_iff_both :
    (⟨.empty, [], [], [], [], [], [], [], 0⟩ : URI).reread both.text = some both.text ↔
      ¬(both.query.isSome ∧ both.fragment.isSome) :=
  reread_iff both _ [] Dictionary.represents_empty

/-- The text of `both` does not come back. -/
theorem not_reread_both : ¬∀ (t : Canonical) (u : URI) (m : List (Bytes × Bytes)),
    Dictionary.Represents u.query_map m → u.reread t.text = some t.text := by
  intro h
  have hread := h both ⟨.empty, [], [], [], [], [], [], [], 0⟩ [] Dictionary.represents_empty
  exact absurd hread (by decide)

end URI

end Srl
