import Srl.Bytes

namespace Srl

/-- An input stream on a string: what is left of it and the two flags of its state that reading sets. -/
structure IStream where
  rest : Bytes
  eof : Bool
  fail : Bool
  deriving DecidableEq

namespace IStream

/-- A stream in which nothing has gone wrong. -/
def ofString (s : Bytes) : IStream := { rest := s, eof := false, fail := false }

def good (s : IStream) : Bool := !s.eof && !s.fail

/-- What each input function does first: on a stream that is not good it fails. -/
def sentry (s : IStream) : IStream := if s.good then s else { s with fail := true }

/-- `input >> std::ws`. -/
def ws (s : IStream) : IStream :=
  let s := s.sentry
  if s.good then
    let rest := s.rest.dropWhile isspace
    { s with rest := rest, eof := rest.isEmpty }
  else s

/-- `input.get(ch)`, which leaves `ch` as it is where there is nothing to read. -/
def get (s : IStream) (ch : UInt8) : UInt8 × IStream :=
  let s := s.sentry
  if s.good then
    match s.rest with
    | [] => (ch, { s with eof := true, fail := true })
    | c :: rest => (c, { s with rest := rest })
  else (ch, s)

/-- `input.putback(ch)` of the character that was read last. -/
def putback (s : IStream) (ch : UInt8) : IStream :=
  let s := { s with eof := false }.sentry
  if s.good then { s with rest := ch :: s.rest } else s

def peek (s : IStream) : Option UInt8 × IStream :=
  let s := s.sentry
  if s.good then
    match s.rest with
    | [] => (none, { s with eof := true })
    | c :: _ => (some c, s)
  else (none, s)

/-- `input.clear()`. -/
def clear (s : IStream) : IStream := { s with eof := false, fail := false }

variable {c : UInt8} {r : Bytes} {s : IStream}

theorem good_ofString (r : Bytes) : (ofString r).good = true := rfl

theorem eq_ofString (h : s.good = true) : s = ofString s.rest := by
  obtain ⟨rest, eof, fail⟩ := s
  simp only [good, Bool.and_eq_true, Bool.not_eq_true'] at h
  rw [h.1, h.2, ofString]

theorem get_ofString_cons (c : UInt8) (r : Bytes) (ch : UInt8) : (ofString (c :: r)).get ch = (c, ofString r) := rfl

theorem get_ofString_nil (ch : UInt8) : (ofString []).get ch = (ch, { rest := [], eof := true, fail := true }) := rfl

theorem sentry_of_not_good (h : s.good = false) : s.sentry = { s with fail := true } := by
  simp [sentry, h]

theorem get_of_not_good (h : s.good = false) (ch : UInt8) : s.get ch = (ch, { s with fail := true }) := by
  simp [get, sentry_of_not_good h, good]

theorem peek_ofString_cons (c : UInt8) (r : Bytes) : (ofString (c :: r)).peek = (some c, ofString (c :: r)) := rfl

theorem putback_ofString (c : UInt8) (r : Bytes) : (ofString r).putback c = ofString (c :: r) := rfl

/-- Space in front of the next character is skipped. -/
theorem ws_ofString {g : Bytes} (hg : ∀ x ∈ g, isspace x = true) (hc : isspace c = false) :
    (ofString (g ++ c :: r)).ws = ofString (c :: r) := by
  have hdrop : (g ++ c :: r).dropWhile isspace = c :: r := by
    rw [List.dropWhile_append_of_pos hg, List.dropWhile_cons, hc]
    rfl
  simp only [ws, sentry, good_ofString, ↓reduceIte]
  rw [show (ofString (g ++ c :: r)).rest = g ++ c :: r from rfl, hdrop]
  rfl

theorem sentry_rest (s : IStream) : s.sentry.rest = s.rest := by
  unfold sentry
  split <;> rfl

theorem sentry_suffix (s : IStream) : s.sentry.rest <:+ s.rest := ⟨[], sentry_rest s⟩

theorem ws_suffix (s : IStream) : s.ws.rest <:+ s.rest := by
  unfold ws
  dsimp only
  split
  · rw [sentry_rest]
    exact List.dropWhile_suffix _
  · exact sentry_suffix s

theorem peek_rest (s : IStream) : s.peek.2.rest = s.rest := by
  have hs := sentry_rest s
  unfold peek
  dsimp only
  split
  · split <;> exact hs
  · exact hs

end IStream

end Srl
