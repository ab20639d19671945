import Srl.HttpRequest

namespace Srl

open Bytes KeyedList Dictionary

namespace HttpRequest

variable {r : HttpRequest} {m : List (Bytes × Bytes)} {method uri maj min ds rest s : Bytes} {c : UInt8}

theorem value_concat {d : Bytes} (h : ∀ x ∈ d ++ [c], 48 ≤ x ∧ x ≤ 57) :
    value (d ++ [c]) = value d * 10 + (c.toNat - 48) := by
  have hc := h c (by simp)
  have hlt : c.toNat - 48 < 10 := by
    have := UInt8.le_iff_toNat_le.mp hc.2
    simp only [UInt8.reduceToNat] at this
    omega
  have hlast : digitsOf 10 [c] = [c.toNat - 48] := digitsOf_cons (if_pos hc) hlt
  rw [value, digitsOf_append fun x hx => isDigit_ten (h x (List.mem_append_left _ hx)), hlast, number_append, value]

theorem toNat_int (hne : ds ≠ []) (hdigits : ∀ c ∈ ds, 48 ≤ c ∧ c ≤ 57) (hsmall : value ds < 2 ^ 31) :
    (int ds 10).toUInt32.toNat = value ds := by
  have hdigit : ∀ c ∈ ds, IsDigit 10 c ∧ c < 71 := by
    intro c hc
    exact ⟨isDigit_ten (hdigits c hc), UInt8.lt_of_le_of_lt (hdigits c hc).2 (by decide)⟩
  have hvalue : strtol ds 10 = (value ds : Int) := by
    rw [(strtol_digits hne hdigit).1]
    exact min_eq_left (by rw [value] at hsmall; omega)
  rw [int, hvalue]
  show (BitVec.ofInt 32 (value ds : Int)).toNat = value ds
  rw [BitVec.toNat_ofInt]
  omega

/-- The part of a minor number that is read. -/
def cut (min : Bytes) : Bytes := if min.length = 1 then min else min.dropLast

theorem cut_spec (hmin : Numeral min) :
    cut min ≠ [] ∧ (∀ c ∈ cut min, 48 ≤ c ∧ c ≤ 57) ∧ value (cut min) ≤ value min ∧
      (value (cut min) = value min ↔ min.length = 1 ∨ value min = 0) := by
  unfold cut
  split
  next hone => exact ⟨hmin.nonempty, hmin.digits, Nat.le_refl _, fun _ => .inl hone, fun _ => rfl⟩
  next hone =>
    rcases List.eq_nil_or_concat min with hnil | ⟨d, c, rfl⟩
    · exact absurd hnil hmin.nonempty
    · rw [List.concat_eq_append] at hmin hone ⊢
      have hvalue := value_concat hmin.digits
      rw [List.dropLast_concat]
      refine ⟨?_, fun x hx => hmin.digits x (List.mem_append_left _ hx), by omega, by omega⟩
      rintro rfl
      exact hone rfl

theorem version_plain (hmaj : Numeral maj) (hmin : Numeral min) : ∀ c ∈ version maj min, 32 < c ∧ c ≠ 127 := by
  have hdigit : ∀ c : UInt8, 48 ≤ c ∧ c ≤ 57 → 32 < c ∧ c ≠ 127 := by
    intro c hc
    rw [UInt8.le_iff_toNat_le, UInt8.le_iff_toNat_le] at hc
    rw [UInt8.lt_iff_toNat_lt, Ne, ← UInt8.toNat_inj]
    simp only [UInt8.reduceToNat] at hc ⊢
    omega
  intro c hc
  rw [version, List.mem_append, List.mem_append, List.mem_cons] at hc
  rcases hc with (hc | hc) | rfl | hc
  · exact (by decide : ∀ c ∈ bytes "HTTP/", 32 < c ∧ c ≠ 127) c hc
  · exact hdigit c (hmaj.digits c hc)
  · decide
  · exact hdigit c (hmin.digits c hc)

theorem ne_of_printed {d : UInt8} (hd : d ≤ 32) (h : 32 < c) : c ≠ d := by
  intro he
  rw [he] at h
  exact absurd (UInt8.lt_of_lt_of_le h hd) (UInt8.lt_irrefl 32)

theorem blank_of_lt (h : 32 < c) : Str.blank c = false := by
  simp [Str.blank, ne_of_printed (by decide : (32 : UInt8) ≤ 32) h, ne_of_printed (by decide : (13 : UInt8) ≤ 32) h,
    ne_of_printed (by decide : (10 : UInt8) ≤ 32) h]

theorem plain_version (hmaj : Numeral maj) (hmin : Numeral min) : Plain (version maj min) :=
  ⟨by simp [version], version_plain hmaj hmin⟩

theorem Plain.field (h : Plain s) : ∀ x ∈ s, x ≠ 32 ∧ x ≠ 0 := fun x hx =>
  ⟨ne_of_printed (by decide) (h.2 x hx).1, ne_of_printed (by decide) (h.2 x hx).1⟩

theorem Plain.inline (h : Plain s) : HttpHeaders.Inline s := fun x hx =>
  ⟨ne_of_printed (by decide) (h.2 x hx).1, ne_of_printed (by decide) (h.2 x hx).1,
    ne_of_printed (by decide) (h.2 x hx).1⟩

/-- A version that is not empty: the last digit of a minor number with more than one is lost. -/
theorem parseVersion_version (hversion : r.request_version = version maj min) (hmaj : Numeral maj)
    (hmin : Numeral min) :
    ∃ major minor : UInt32, major.toNat = value maj ∧ minor.toNat = value (cut min) ∧
      r.parseVersion = some (if major = 0 ∧ minor = 0 then
        .error (.IOException (bytes "Bad Request Version: " ++ version maj min))
      else .ok { r with major, minor }) := by
  have hplain := version_plain hmaj hmin
  obtain ⟨hne, hdigits, hle, -⟩ := cut_spec hmin
  have hout : ∀ d : UInt8, d < 48 ∨ 57 < d → ∀ x : UInt8, 48 ≤ x ∧ x ≤ 57 → x ≠ d := by
    rintro d hd x hx rfl
    rcases hd with hd | hd
    · exact absurd (UInt8.lt_of_lt_of_le hd hx.1) (UInt8.lt_irrefl x)
    · exact absurd (UInt8.lt_of_le_of_lt hx.2 hd) (UInt8.lt_irrefl x)
  have hmajor : (version maj min).betweenChars 47 46 = some maj := by
    rw [betweenChars_eq (show version maj min = bytes "HTTP" ++ 47 :: (maj ++ 46 :: min) by
      rw [version, List.append_assoc]; rfl) (by decide) (by decide) (by decide) fun x hx =>
      ⟨hout 46 (by decide) x (hmaj.digits x hx), hout 0 (by decide) x (hmaj.digits x hx)⟩, if_neg hmaj.nonempty]
  have hminor : (version maj min).betweenChars 46 13 = some (cut min) := by
    rw [betweenChars_open (show version maj min = (bytes "HTTP/" ++ maj) ++ 46 :: min from rfl) (by decide)
      (by decide) ?_ (fun x hx =>
      ⟨hout 13 (by decide) x (hmin.digits x hx), hout 0 (by decide) x (hmin.digits x hx)⟩) hmin.nonempty]
    · rfl
    · intro x hx
      rcases List.mem_append.mp hx with hx | hx
      · exact (by decide : ∀ x ∈ bytes "HTTP/", x ≠ 46 ∧ x ≠ 0) x hx
      · exact ⟨hout 46 (by decide) x (hmaj.digits x hx), hout 0 (by decide) x (hmaj.digits x hx)⟩
  have hzero : ∀ x ∈ version maj min, x ≠ 0 := by
    rintro x hx rfl
    exact absurd (hplain 0 hx).1 (by decide)
  have hcstr : cstr (version maj min) = version maj min := cstr_of_ne hzero
  have hbegins : (version maj min).beginsWith (bytes "HTTP/") = true := by
    rw [beginsWith, hcstr, version, List.append_assoc]
    rfl
  have htrim : (version maj min).trimEnd = version maj min := by
    have := @trimEnd_last (version maj min) [] (fun c hc => blank_of_lt (hplain c (List.mem_of_getLast? hc)).1)
      fun c hc => absurd hc List.not_mem_nil
    rwa [List.append_nil] at this
  refine ⟨_, _, toNat_int hmaj.nonempty hmaj.digits hmaj.small,
    toNat_int hne hdigits (Nat.lt_of_le_of_lt hle hmin.small), ?_⟩
  rw [parseVersion, hversion, if_pos (by simp [version]), hbegins, hmajor, hminor, if_pos rfl]
  dsimp only [Option.bind_eq_bind, Option.bind_some]
  rw [hcstr, htrim, apply_ite some]

/-- The three parts of a line with blanks between them. -/
def joined (method uri version : Bytes) : Bytes := method ++ 32 :: (uri ++ 32 :: version)

theorem joined_inline (hmethod : Plain method) (huri : Plain uri) (hs : Plain s) :
    HttpHeaders.Inline (joined method uri s) := by
  intro x hx
  rcases List.mem_append.mp hx with hx | hx
  · exact hmethod.inline x hx
  rcases List.mem_cons.mp hx with rfl | hx
  · decide
  rcases List.mem_append.mp hx with hx | hx
  · exact huri.inline x hx
  rcases List.mem_cons.mp hx with rfl | hx
  · decide
  · exact hs.inline x hx

theorem joined_trimEnd (hs : Plain s) : trimEnd (joined method uri s ++ bytes "\r\n") = joined method uri s := by
  refine trimEnd_last (fun c hc => ?_) HttpHeaders.crlf_blank
  have happend : joined method uri s = (method ++ 32 :: (uri ++ [32])) ++ s := by simp [joined]
  rw [happend, List.getLast?_append_of_ne_nil _ hs.1] at hc
  exact blank_of_lt (hs.2 c (List.mem_of_getLast? hc)).1

/-- The fields of the line are its parts. -/
theorem section_joined (hmethod : Plain method) (huri : Plain uri) (hs : Plain s) :
    (joined method uri s).«section» 32 0 = method ∧ (joined method uri s).«section» 32 1 = uri ∧
      (joined method uri s).«section» 32 2 = s := by
  have hfirst : (joined method uri s).drop 0 = method ++ 32 :: (uri ++ 32 :: s) := rfl
  have hsecond : (joined method uri s).drop (0 + method.length + 1) = uri ++ 32 :: s := by
    rw [Nat.zero_add, ← List.drop_drop, joined, List.drop_left]
    rfl
  have hthird : (joined method uri s).drop (0 + method.length + 1 + uri.length + 1) = s := by
    rw [Nat.add_assoc _ uri.length, ← List.drop_drop, hsecond, ← List.drop_drop, List.drop_left]
    rfl
  have hle : 0 + method.length + 1 + uri.length + 1 ≤ (joined method uri s).length := by
    simp only [joined, List.length_append, List.length_cons]
    omega
  refine ⟨section_first rfl (by decide) hmethod.field hmethod.1, ?_, ?_⟩
  · rw [«section», sectionFrom_next hfirst (by decide) hmethod.field,
      sectionFrom_field hsecond (by decide) huri.field, if_neg huri.1]
  · rw [«section», sectionFrom_next hfirst (by decide) hmethod.field,
      sectionFrom_next hsecond (by decide) huri.field,
      sectionFrom_last hthird hle (by decide) fun h32 => (hs.field 32 h32).1 rfl]

theorem parseRequestLine_line (hd : Represents r.headers m) (hmethod : Plain method) (huri : Plain uri)
    (hmaj : Numeral maj) (hmin : Numeral min) (rest : Bytes) :
    ∃ (headers : Dictionary Bytes Bytes) (content : Bytes) (major minor : UInt32), major.toNat = value maj ∧
      minor.toNat = value (cut min) ∧
      r.parseRequestLine (requestLine method uri maj min ++ rest) = some (if major = 0 ∧ minor = 0 then
        .error (.IOException (bytes "Bad Request Version: " ++ version maj min))
      else .ok ({ r with headers, content, method, uri, request_version := version maj min, major, minor }, rest)) := by
  have hversion := plain_version hmaj hmin
  obtain ⟨hsection0, hsection1, hsection2⟩ := section_joined hmethod huri hversion
  have hread : HttpHeaders.readUntil (requestLine method uri maj min ++ rest) =
      (joined method uri (version maj min) ++ bytes "\r\n", rest) :=
    HttpHeaders.readUntil_line (joined_inline hmethod huri hversion)
  obtain ⟨headers, hclear, -⟩ := clear_spec hd
  obtain ⟨major, minor, hmajor, hminor, hparse⟩ :=
    @parseVersion_version { r with
      headers
      content := joined method uri (version maj min)
      method
      uri
      request_version := version maj min } maj min rfl hmaj hmin
  refine ⟨headers, joined method uri (version maj min), major, minor, hmajor, hminor, ?_⟩
  rw [parseRequestLine, hclear, hread]
  dsimp only [Option.bind_eq_bind, Option.bind_some]
  rw [if_neg (by simp [joined]), joined_trimEnd hversion, hsection0, hsection1, hsection2, hparse]
  dsimp only [Option.bind_some]
  split
  next => rfl
  next => rfl

/-- What the request line gives. -/
def parts (r : HttpRequest) : Bytes × Bytes × Bytes × UInt32 × UInt32 :=
  (r.method, r.uri, r.request_version, r.major, r.minor)

variable {q : HttpRequest}

theorem reads_congr (h : q.parts = r.parts) : Reads q method uri maj min ↔ Reads r method uri maj min := by
  simp only [parts, Prod.mk.injEq] at h
  obtain ⟨hmethod, huri, hversion, hmajor, hminor⟩ := h
  constructor
  · rintro ⟨h₁, h₂, h₃, h₄, h₅⟩
    exact ⟨hmethod ▸ h₁, huri ▸ h₂, hversion ▸ h₃, hmajor ▸ h₄, hminor ▸ h₅⟩
  · rintro ⟨h₁, h₂, h₃, h₄, h₅⟩
    exact ⟨hmethod ▸ h₁, huri ▸ h₂, hversion ▸ h₃, hmajor ▸ h₄, hminor ▸ h₅⟩

theorem getContentLength_parts (h : r.getContentLength = some (.ok q)) : q.parts = r.parts := by
  obtain ⟨b, -, h⟩ := Option.bind_eq_some_iff.mp h
  cases b with
  | false => cases h; rfl
  | true =>
    obtain ⟨e, -, h⟩ := Option.bind_eq_some_iff.mp h
    cases e with
    | error e => cases h
    | ok value => cases h; rfl

theorem parseHeaders_parts {stream : Bytes} (h : r.parseHeaders stream = some (.ok q)) : q.parts = r.parts := by
  obtain ⟨s, -, h⟩ := Option.bind_eq_some_iff.mp h
  cases s with
  | error e => cases h
  | ok s =>
    obtain ⟨p, hp, h⟩ := Option.bind_eq_some_iff.mp h
    cases p with
    | error e => cases h
    | ok p =>
      cases h
      have hparts := getContentLength_parts hp
      exact hparts

/-- Nothing after the request line changes its parts. -/
theorem parseRequest_parts {stream : Bytes} (h : r.parseRequest stream = some (.ok q)) :
    ∃ p rest, r.parseRequestLine stream = some (.ok (p, rest)) ∧ q.parts = p.parts := by
  obtain ⟨e, hline, h⟩ := Option.bind_eq_some_iff.mp h
  cases e with
  | error e => cases h
  | ok parsed =>
    obtain ⟨p, rest⟩ := parsed
    obtain ⟨e', hheaders, h⟩ := Option.bind_eq_some_iff.mp h
    cases e' with
    | error e => cases h
    | ok p' =>
      obtain ⟨host, -, h⟩ := Option.bind_eq_some_iff.mp h
      cases host with
      | error e => cases h
      | ok u =>
        refine ⟨p, rest, hline, (getContentLength_parts h).trans ?_⟩
        split at hheaders
        next => exact parseHeaders_parts hheaders
        next => cases hheaders; rfl

/-- The parts of a request line are read rightly exactly if the minor number has one digit or is zero;
and whatever follows the line, the request that a handler gets has the same parts. -/
theorem parseRequest_reads (hd : Represents r.headers m) (hmethod : Plain method) (huri : Plain uri)
    (hmaj : Numeral maj) (hmin : Numeral min) (hpos : value maj ≠ 0 ∨ value min ≠ 0) (rest : Bytes) :
    (∃ e, r.parseRequestLine (requestLine method uri maj min ++ rest) = some e ∧
      ((∃ q, e = .ok (q, rest) ∧ Reads q method uri maj min) ↔ min.length = 1 ∨ value min = 0)) ∧
    ∀ q, r.parseRequest (requestLine method uri maj min ++ rest) = some (.ok q) →
      (Reads q method uri maj min ↔ min.length = 1 ∨ value min = 0) := by
  obtain ⟨headers, content, major, minor, hmajor, hminor, hrun⟩ := parseRequestLine_line hd hmethod huri hmaj hmin rest
  obtain ⟨-, -, -, hcut⟩ := cut_spec hmin
  have hzero : ∀ n : UInt32, n = 0 ↔ n.toNat = 0 := fun n => by rw [← UInt32.toNat_inj]; rfl
  have hreads : Reads { r with headers, content, method, uri, request_version := version maj min, major, minor }
      method uri maj min ↔ min.length = 1 ∨ value min = 0 := by
    rw [← hcut, ← hminor]
    exact ⟨fun h => h.minor, fun h => ⟨rfl, rfl, rfl, hmajor, h⟩⟩
  by_cases hbad : major = 0 ∧ minor = 0
  · rw [if_pos hbad] at hrun
    have hwrong : ¬(min.length = 1 ∨ value min = 0) := by
      rw [hzero, hzero] at hbad
      rw [← hcut]
      omega
    refine ⟨⟨_, hrun, ?_⟩, fun q hq => ?_⟩
    · refine ⟨fun h => ?_, fun h => absurd h hwrong⟩
      obtain ⟨q, he, -⟩ := h
      cases he
    · obtain ⟨p, rest', hp, -⟩ := parseRequest_parts hq
      rw [hrun] at hp
      cases hp
  · rw [if_neg hbad] at hrun
    refine ⟨⟨_, hrun, ?_⟩, fun q hq => ?_⟩
    · rw [← hreads]
      constructor
      · rintro ⟨q, he, hq⟩
        cases he
        exact hq
      · exact fun h => ⟨_, rfl, h⟩
    · obtain ⟨p, rest', hp, hparts⟩ := parseRequest_parts hq
      rw [hrun] at hp
      cases hp
      rw [reads_congr hparts, hreads]

/-- A request as it is made. -/
def fresh : HttpRequest := ⟨[], 0, Dictionary.empty, [], [], [], 0, 0⟩

theorem parseRequest_reads_get : ∃ q, fresh.parseRequestLine (bytes "GET /a HTTP/1.1\r\nHost: b\r\n\r\n") =
    some (.ok (q, bytes "Host: b\r\n\r\n")) ∧ q.method = bytes "GET" ∧ q.uri = bytes "/a" ∧ q.minor = 1 := by
  have hone : Numeral (bytes "1") := ⟨by decide, by decide, by decide⟩
  obtain ⟨⟨e, hrun, hreads⟩, -⟩ := @parseRequest_reads fresh _ _ _ _ _
    (show Represents fresh.headers [] from represents_empty) (by decide : Plain (bytes "GET"))
    (by decide : Plain (bytes "/a")) hone hone (.inl (by decide)) (bytes "Host: b\r\n\r\n")
  obtain ⟨q, rfl, hq⟩ := hreads.mpr (.inl rfl)
  exact ⟨q, hrun, hq.method, hq.uri, UInt32.toNat_inj.mp hq.minor⟩

/-- The version 1.10 is read as 1.1. -/
theorem not_parseRequest_reads : ¬∀ (r : HttpRequest) (m : List (Bytes × Bytes)) (method uri maj min rest : Bytes),
    Represents r.headers m → Plain method → Plain uri → Numeral maj → Numeral min → value maj ≠ 0 ∨ value min ≠ 0 →
    ∃ q, r.parseRequestLine (requestLine method uri maj min ++ rest) = some (.ok (q, rest)) ∧
      Reads q method uri maj min := by
  intro h
  have hone : Numeral (bytes "1") := ⟨by decide, by decide, by decide⟩
  have hten : Numeral (bytes "10") := ⟨by decide, by decide, by decide⟩
  obtain ⟨q, hq, hreads⟩ := h fresh [] (bytes "GET") (bytes "/") (bytes "1") (bytes "10")
    [] represents_empty (by decide) (by decide) hone hten (.inl (by decide))
  obtain ⟨headers, content, major, minor, hmajor, hminor, hrun⟩ :=
    @parseRequestLine_line fresh _ _ _ _ _ (show Represents fresh.headers [] from represents_empty)
      (by decide : Plain (bytes "GET")) (by decide : Plain (bytes "/")) hone hten []
  rw [hrun] at hq
  split at hq
  next => cases hq
  next =>
    cases hq
    have hminor' := hreads.minor
    rw [hminor] at hminor'
    exact absurd hminor' (by decide)

end HttpRequest

end Srl
