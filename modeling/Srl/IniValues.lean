import Srl.IniContents

namespace Srl

open Bytes KeyedList Dictionary

namespace IniParser

/-- Text without surrounding blanks. -/
def Trimmed (t : Bytes) : Prop :=
  (∀ c, t.head? = some c → Str.blank c = false) ∧ ∀ c, t.getLast? = some c → Str.blank c = false

/-- A key as it may stand in front of a value. -/
structure Key (k : Bytes) : Prop where
  nonempty : k ≠ []
  text : ∀ c ∈ k, c ≠ 61 ∧ c ≠ 10 ∧ c ≠ 0
  trimmed : Trimmed k
  head : k.head? ≠ some 91 ∧ k.head? ≠ some 35 ∧ k.head? ≠ some 59

/-- A value on one line. Without quotes around it, blanks at its ends and a quote in front are lost. -/
structure Value (quoted : Bool) (v : Bytes) : Prop where
  text : ∀ c ∈ v, c ≠ 10 ∧ c ≠ 0
  bare : quoted = false → Trimmed v ∧ v.head? ≠ some 34 ∧ v.head? ≠ some 39

def written (quoted : Bool) (v : Bytes) : Bytes := if quoted then 34 :: (v ++ [34]) else v

/-- The values that come back: one in quotes must be there and have no equals sign, one without may have it in front
only. -/
def Kept (quoted : Bool) (v : Bytes) : Prop := if quoted then v ≠ [] ∧ 61 ∉ v else 61 ∈ v → v.head? = some 61

variable {p : IniParser} {s : Ptr} {x : Contents × Int} {k v w a r t : Bytes} {quoted : Bool}

theorem trim_trimmed (h : Trimmed t) : t.trim = t := by
  have hfront : t.dropWhile Str.blank = t := by
    cases t with
    | nil => rfl
    | cons c t => exact List.dropWhile_cons_of_neg (by rw [h.1 c rfl]; exact Bool.false_ne_true)
  have hback := @trimEnd_last t [] h.2 fun c hc => absurd hc List.not_mem_nil
  rw [List.append_nil] at hback
  rw [trim, hfront, hback]

theorem length_trim_le (t : Bytes) : t.trim.length ≤ t.length :=
  (List.rdropWhile_prefix _ _).length_le.trans (List.dropWhile_suffix _).length_le

/-- What is taken for the value. -/
theorem section_value (hk : Key k) (hw : ∀ c ∈ w, c ≠ 0) :
    (61 ∉ w → (k ++ 61 :: w).«section» 61 1 = w) ∧
      (w = a ++ 61 :: r → 61 ∉ a → (k ++ 61 :: w).«section» 61 1 = if a = [] then w else a) := by
  have hdrop : (k ++ 61 :: w).drop (0 + k.length + 1) = w := by
    rw [Nat.zero_add, ← List.drop_drop, List.drop_left]
    rfl
  have hnext : (k ++ 61 :: w).«section» 61 1 = sectionFrom (k ++ 61 :: w) 61 0 (0 + k.length + 1) :=
    sectionFrom_next rfl (by decide) fun c hc => ⟨(hk.text c hc).1, (hk.text c hc).2.2⟩
  constructor
  · intro hnone
    refine hnext.trans (sectionFrom_last hdrop ?_ (by decide) hnone)
    rw [List.length_append, List.length_cons]
    omega
  · rintro rfl ha
    rw [hnext, sectionFrom_field hdrop (by decide) fun c hc =>
      ⟨fun he => ha (he ▸ hc), hw c (List.mem_append_left _ hc)⟩]
    split
    next hnil =>
      subst hnil
      exact cstr_of_ne hw
    next => rfl

theorem length_substr_le {i len : Nat} : (t.substr i len).length ≤ t.length - i := by
  have hcstr : ∀ u : Bytes, (cstr u).length ≤ u.length := fun u => (List.takeWhile_prefix _).length_le
  unfold substr mid ofText
  split
  next =>
    split
    next => exact (hcstr _).trans (by rw [List.length_drop])
    next => rw [List.length_take, List.length_drop]; exact Nat.min_le_right _ _
  next => exact Nat.zero_le _

theorem length_unquote_le (h : unquote t = some v) : v.length ≤ t.length := by
  unfold unquote at h
  split at h
  next =>
    split at h
    next => cases h; exact length_substr_le.trans (Nat.sub_le _ _)
    next => cases h
  next => cases h; exact Nat.le_refl _

/-- Of a value in quotes not all is left. -/
theorem length_unquote_lt (h : unquote (34 :: t) = some v) : v.length ≤ t.length := by
  rw [unquote, if_pos (.inl rfl)] at h
  split at h
  next => cases h; exact length_substr_le
  next => cases h

theorem unquote_bare (h34 : v.head? ≠ some 34) (h39 : v.head? ≠ some 39) : unquote v = some v := by
  refine if_neg ?_
  cases v with
  | nil => decide
  | cons c v => exact fun h => h.elim (fun he => h34 (congrArg some he)) fun he => h39 (congrArg some he)

theorem unquote_quoted (hv : v ≠ []) : unquote (34 :: (v ++ [34])) = some v := by
  have hlen : (34 :: (v ++ [34])).length = v.length + 2 := by simp
  have hdrop : (34 :: (v ++ [34])).drop 1 = v ++ [34] := rfl
  rw [unquote, if_pos (.inl rfl), hlen, if_pos (by omega), Nat.add_sub_cancel, substr_eq hdrop hv]

/-- The characters behind the equals sign. -/
theorem written_text (hv : Value quoted v) : ∀ c ∈ written quoted v, c ≠ 10 ∧ c ≠ 0 := by
  intro c hc
  unfold written at hc
  split at hc
  next =>
    rw [List.mem_cons, List.mem_append, List.mem_singleton] at hc
    rcases hc with rfl | hc | rfl
    · decide
    · exact hv.text c hc
    · decide
  next => exact hv.text c hc

theorem getLast_quoted (v : Bytes) : (34 :: (v ++ [34])).getLast? = some 34 := by
  rw [← List.cons_append, List.getLast?_concat]

theorem trimmed_quoted (v : Bytes) : Trimmed (34 :: (v ++ [34])) := by
  refine ⟨fun c hc => ?_, fun c hc => ?_⟩
  · obtain rfl := Option.some.inj hc
    decide
  · obtain rfl := Option.some.inj ((getLast_quoted v).symm.trans hc)
    decide

/-- The value that a line stores without quotes. -/
theorem unquote_section_bare (hk : Key k) (hv : Value false v) :
    unquote ((k ++ 61 :: v).«section» 61 1).trim = some v ↔ (61 ∈ v → v.head? = some 61) := by
  have hzero : ∀ c ∈ v, c ≠ 0 := fun c hc => (hv.text c hc).2
  obtain ⟨htrimmed, h34, h39⟩ := hv.bare rfl
  have hwhole : unquote v.trim = some v := by rw [trim_trimmed htrimmed, unquote_bare h34 h39]
  by_cases hmem : 61 ∈ v
  · obtain ⟨a, r, hsplit, ha⟩ := List.eq_append_cons_of_mem hmem
    rw [(@section_value k v a r hk hzero).2 hsplit ha]
    by_cases hnil : a = []
    · rw [if_pos hnil]
      exact ⟨fun _ _ => by rw [hsplit, hnil]; rfl, fun _ => hwhole⟩
    · rw [if_neg hnil]
      refine ⟨fun h => ?_, fun h => ?_⟩
      · have hlen := (length_unquote_le h).trans (length_trim_le a)
        rw [hsplit, List.length_append, List.length_cons] at hlen
        omega
      · obtain ⟨c, a, rfl⟩ := List.exists_cons_of_ne_nil hnil
        have hhead := h hmem
        rw [hsplit] at hhead
        exact absurd (Option.some.inj hhead ▸ List.mem_cons_self) ha
  · rw [(@section_value k v [] [] hk hzero).1 hmem]
    exact ⟨fun _ h => absurd h hmem, fun _ => hwhole⟩

/-- The value that it stores with quotes. -/
theorem unquote_section_quoted (hk : Key k) (hv : Value true v) :
    unquote ((k ++ 61 :: 34 :: (v ++ [34])).«section» 61 1).trim = some v ↔ v ≠ [] ∧ 61 ∉ v := by
  have hzero : ∀ c ∈ (34 :: (v ++ [34]) : Bytes), c ≠ 0 := fun c hc => (written_text hv c hc).2
  by_cases hmem : 61 ∈ v
  · obtain ⟨a, r, hsplit, ha⟩ := List.eq_append_cons_of_mem hmem
    have hwritten : 34 :: (v ++ [34]) = (34 :: a) ++ 61 :: (r ++ [34]) := by
      rw [hsplit, List.append_assoc]
      rfl
    have hquote : 61 ∉ (34 :: a : Bytes) := by
      rw [List.mem_cons, not_or]
      exact ⟨by decide, ha⟩
    have htrim : trim (34 :: a) = 34 :: trimEnd a := @trimEnd_append [] a 34 rfl
    rw [(@section_value k _ (34 :: a) (r ++ [34]) hk hzero).2 hwritten hquote, if_neg (List.cons_ne_nil _ _), htrim]
    refine ⟨fun h => ?_, fun h => absurd hmem h.2⟩
    have hlen := (length_unquote_lt h).trans (List.rdropWhile_prefix _ _).length_le
    rw [hsplit, List.length_append, List.length_cons] at hlen
    omega
  · have hnone : 61 ∉ (34 :: (v ++ [34]) : Bytes) := by
      rw [List.mem_cons, List.mem_append, List.mem_singleton]
      exact fun h => h.elim (by decide) fun h => h.elim hmem (by decide)
    rw [(@section_value k _ [] [] hk hzero).1 hnone, trim_trimmed (trimmed_quoted v)]
    by_cases hnil : v = []
    · subst hnil
      exact ⟨fun h => absurd h (by decide), fun h => absurd rfl h.1⟩
    · rw [unquote_quoted hnil]
      exact ⟨fun _ => ⟨hnil, hmem⟩, fun _ => rfl⟩

/-- The value that a line stores is its own exactly if it is kept. -/
theorem unquote_section_iff (hk : Key k) (hv : Value quoted v) :
    unquote ((k ++ 61 :: written quoted v).«section» 61 1).trim = some v ↔ Kept quoted v := by
  cases quoted with
  | false => exact unquote_section_bare hk hv
  | true => exact unquote_section_quoted hk hv

/-- No carriage return at the end of the line is taken for one of its line break. -/
theorem getLast_written (hv : Value quoted v) (k : Bytes) : (k ++ 61 :: written quoted v).getLast? ≠ some 13 := by
  rw [List.getLast?_append_of_ne_nil _ (List.cons_ne_nil _ _)]
  cases quoted with
  | true =>
    show (61 :: 34 :: (v ++ [34])).getLast? ≠ some 13
    rw [List.getLast?_cons, getLast_quoted]
    decide
  | false =>
    show (61 :: v).getLast? ≠ some 13
    intro h13
    cases hv' : v.getLast? with
    | none =>
      rw [List.getLast?_eq_none_iff.mp hv'] at h13
      exact absurd h13 (by decide)
    | some c =>
      rw [List.getLast?_cons, hv', Option.getD_some] at h13
      obtain rfl := Option.some.inj h13
      exact absurd ((hv.bare rfl).1.2 13 hv') (by decide)

theorem meaning_property (hk : Key k) (hw : ∀ c ∈ w, c ≠ 0) : meaning (k ++ 61 :: w) =
    (unquote ((k ++ 61 :: w).«section» 61 1).trim).map (.property k) := by
  have hzero : ∀ c ∈ k ++ 61 :: w, c ≠ 0 := by
    intro c hc
    rw [List.mem_append, List.mem_cons] at hc
    rcases hc with hc | rfl | hc
    · exact (hk.text c hc).2.2
    · decide
    · exact hw c hc
  have hcount : 0 < (k ++ 61 :: w).countChar 61 := by
    rw [countChar, cstr_of_ne hzero]
    exact List.count_pos_iff.mpr (List.mem_append_right _ List.mem_cons_self)
  have hfield : ((k ++ 61 :: w).«section» 61 0).trim = k := by
    rw [section_first rfl (by decide) (fun c hc => ⟨(hk.text c hc).1, (hk.text c hc).2.2⟩) hk.nonempty,
      trim_trimmed hk.trimmed]
  obtain ⟨c, k', rfl⟩ := List.exists_cons_of_ne_nil hk.nonempty
  obtain ⟨h91, h35, h59⟩ := hk.head
  have hchar : ∀ d : UInt8, (c :: k').head? ≠ some d → charAt (c :: k' ++ 61 :: w) 0 ≠ d :=
    fun d hd he => hd (congrArg some he)
  rw [meaning, if_neg (hchar 91 h91), if_neg (not_or.mpr ⟨hchar 35 h35, hchar 59 h59⟩), if_pos hcount, hfield]

theorem getString_found {sec : IniSection} {ps : List (Bytes × Bytes)} {y : Bytes} (hheap : p.heap s = some sec)
    (hd : Represents sec.properties ps) (hlookup : lookup Hasher.hash ps (Hasher.hash k) = some y)
    (default_value : Bytes) :
    p.getString s k default_value = some (y, { p with heap := Function.update p.heap s (some sec) }) := by
  have hhas : has Hasher.hash ps (Hasher.hash k) = true := by rw [← lookup_isSome, hlookup]; rfl
  rw [getString, hheap]
  dsimp only [Option.bind_eq_bind, Option.bind_some]
  rw [hasKey_spec hd, hhas]
  dsimp only [Option.bind_some, if_true]
  rw [valueAt_spec hd hlookup]
  rfl

/-- A property that is there is returned, whatever the default. -/
theorem getString_spec {P : Properties} {n k' y : Bytes} (hs : HoldsAt p s x) (hsec : x.1 x.2 = some (n, P))
    (hprop : P (Hasher.hash k) = some (k', y)) (default_value : Bytes) :
    ∃ p', p.getString s k default_value = some (y, p') := by
  obtain ⟨m, c, n', hsections, hmem, rfl⟩ := hs
  obtain ⟨sec, hheap, -, hd⟩ := hsections.live _ hmem
  obtain ⟨-, rfl⟩ := Prod.mk.inj (Option.some.inj ((hsections.contents_of_mem hmem).symm.trans hsec))
  exact ⟨_, getString_found hheap hd (congrArg (Option.map Prod.snd) hprop) default_value⟩

/-- The default of a property that is not there is stored. -/
theorem getString_default {P : Properties} {n : Bytes} (hs : HoldsAt p s x) (hsec : x.1 x.2 = some (n, P))
    (hprop : P (Hasher.hash k) = none) (default_value : Bytes) :
    ∃ p', p.getString s k default_value = some (default_value, p') ∧
      HoldsAt p' s (x.1.put x.2 k default_value, x.2) := by
  obtain ⟨m, c, n', hsections, hmem, rfl⟩ := hs
  obtain ⟨sec, hheap, -, hd⟩ := hsections.live _ hmem
  obtain ⟨-, rfl⟩ := Prod.mk.inj (Option.some.inj ((hsections.contents_of_mem hmem).symm.trans hsec))
  obtain ⟨p', c', hput, hsections', hcontents⟩ := putString_spec hsections hmem k default_value
  obtain ⟨properties, hassign, hproperties⟩ := assign_spec hd k default_value
  refine ⟨p', ?_, m, c', n', hsections', hmem, by rw [hcontents]⟩
  rw [putString, hheap] at hput
  dsimp only [Option.bind_eq_bind, Option.bind_some] at hput
  rw [hassign, Option.bind_some] at hput
  rw [getString, hheap]
  dsimp only [Option.bind_eq_bind, Option.bind_some]
  rw [hasKey_spec hd, entry_eq_none_iff.mp hprop]
  dsimp only [Option.bind_some]
  rw [if_neg Bool.false_ne_true, hassign, Option.bind_some, valueAt_spec hproperties lookup_assign_self,
    Option.bind_some,
    ← Option.some.inj hput]

/-- What a line with a key and a value makes of the section. -/
theorem getString_line {eol rest : Bytes} (hs : HoldsAt p s x) (hk : Key k) (hv : Value quoted v)
    (hlen : (k ++ 61 :: written quoted v).length < 1000) (heol : TextFile.Eol eol rest) (eof : Bool)
    (default_value : Bytes) :
    (∃ p' p'', p.parseLine s (TextFile.readLine ⟨k ++ 61 :: written quoted v ++ eol ++ rest, eof⟩).1 = some (p', s) ∧
      p'.getString s k default_value = some (v, p'')) ↔
    unquote ((k ++ 61 :: written quoted v).«section» 61 1).trim = some v := by
  have htext := written_text hv
  have hline : ∀ c ∈ k ++ 61 :: written quoted v, c ≠ 10 ∧ c ≠ 0 := by
    intro c hc
    rw [List.mem_append, List.mem_cons] at hc
    rcases hc with hc | rfl | hc
    · exact (hk.text c hc).2
    · decide
    · exact htext c hc
  rw [TextFile.readLine_line hline (by simp) hlen (getLast_written hv k) heol]
  obtain ⟨hnone, hsome⟩ := parseLine_spec hs (k ++ 61 :: written quoted v)
  rw [meaning_property hk fun c hc => (htext c hc).2] at hnone hsome
  cases hy : unquote ((k ++ 61 :: written quoted v).«section» 61 1).trim with
  | none =>
    refine ⟨fun h => ?_, fun h => absurd h.symm (Option.some_ne_none v)⟩
    obtain ⟨p', -, hrun, -⟩ := h
    rw [hnone (by rw [hy]; rfl)] at hrun
    cases hrun
  | some y =>
    obtain ⟨p', s', hrun, hs', hcurrent⟩ := hsome (.property k y) (by rw [hy]; rfl)
    obtain ⟨m, c, n, hsections, hmem, rfl⟩ := hs
    have hput : (step (contents m c, Hasher.hash n) (.property k y)).1 (Hasher.hash n) =
        some (n, Properties.put (entry Hasher.hash (c s)) k y) := by
      rw [step, Contents.put]
      dsimp only
      rw [Function.update_self, hsections.contents_of_mem hmem, Option.map_some]
    obtain ⟨p'', hget⟩ := getString_spec hs' hput (by rw [Properties.put, Function.update_self]) default_value
    obtain rfl := hcurrent fun name he => by cases he
    refine ⟨fun h => ?_, fun h => ?_⟩
    · obtain ⟨q, q', hrun', hget'⟩ := h
      rw [hrun] at hrun'
      obtain ⟨rfl, -⟩ := Prod.mk.inj (Option.some.inj hrun')
      rw [hget] at hget'
      exact congrArg some (Prod.mk.inj (Option.some.inj hget')).1
    · obtain rfl := Option.some.inj h
      exact ⟨p', p'', hrun, hget⟩

/-- A line with a key and a value makes `getString` in the current section return that value exactly if it is kept. -/
theorem getString_line_iff {eol rest : Bytes} (hs : HoldsAt p s x) (hk : Key k) (hv : Value quoted v)
    (hlen : (k ++ 61 :: written quoted v).length < 1000) (heol : TextFile.Eol eol rest) (eof : Bool)
    (default_value : Bytes) :
    (∃ p' p'', p.parseLine s (TextFile.readLine ⟨k ++ 61 :: written quoted v ++ eol ++ rest, eof⟩).1 = some (p', s) ∧
      p'.getString s k default_value = some (v, p'')) ↔ Kept quoted v := by
  rw [getString_line hs hk hv hlen heol, unquote_section_iff hk hv]

theorem holdsAt_default : ∃ p s x, HoldsAt p s x := by
  obtain ⟨s, p, m, c, n, -, hs, hmem, -, -⟩ := getSection_spec sections_fresh (bytes "default")
  exact ⟨p, s, _, m, c, n, hs, hmem, rfl⟩

theorem key_a : Key (bytes "a") := ⟨by decide, by decide,
    ⟨by simp [bytes, Str.blank], by simp [bytes, Str.blank]⟩, by decide⟩

theorem getString_line_iff_quoted : ∃ p s p' p'', parseLine p s
    (TextFile.readLine ⟨bytes "a=\"b c\"\r\n", false⟩).1 = some (p', s) ∧
    p'.getString s (bytes "a") [] = some (bytes "b c", p'') := by
  obtain ⟨p, s, x, hs⟩ := holdsAt_default
  have hv : Value true (bytes "b c") := ⟨by decide, fun h => absurd h (by decide)⟩
  obtain ⟨p', p'', hrun⟩ := (getString_line_iff hs key_a hv (by decide) (.crlf []) false []).mpr ⟨by decide, by decide⟩
  exact ⟨p, s, p', p'', hrun⟩

/-- A value with an equals sign is cut off there. -/
theorem not_getString_line : ¬∀ (p : IniParser) (s : Ptr) (x : Contents × Int) (quoted : Bool)
    (k v eol rest default_value : Bytes),
    HoldsAt p s x → Key k → Value quoted v → (k ++ 61 :: written quoted v).length < 1000 → TextFile.Eol eol rest →
    ∃ p' p'', p.parseLine s (TextFile.readLine ⟨k ++ 61 :: written quoted v ++ eol ++ rest, false⟩).1 = some (p', s) ∧
      p'.getString s k default_value = some (v, p'') := by
  intro h
  obtain ⟨p, s, x, hs⟩ := holdsAt_default
  have hv : Value true (bytes "b=c") := ⟨by decide, fun h => absurd h (by decide)⟩
  have hstored := (getString_line hs key_a hv (by decide) (.lf []) false []).mp
    (h p s x true (bytes "a") (bytes "b=c") [10] [] [] hs key_a hv (by decide) (.lf []))
  exact absurd hstored (by decide)

end IniParser

end Srl
