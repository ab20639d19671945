import Srl.IniParser

namespace Srl

open Bytes KeyedList Dictionary

namespace IniParser

/-- Properties by the hashes of their names. -/
abbrev Properties := Int → Option (Bytes × Bytes)

/-- Sections with their properties, by the hashes of their names. -/
abbrev Contents := Int → Option (Bytes × Properties)

/-- A property is stored; one that is there keeps its name. -/
def Properties.put (P : Properties) (name value : Bytes) : Properties :=
  Function.update P (Hasher.hash name) (some (((P (Hasher.hash name)).map Prod.fst).getD name, value))

namespace Contents

def empty : Contents := fun _ => none

/-- A section is made where there is none. -/
def enter (A : Contents) (name : Bytes) : Contents :=
  Function.update A (Hasher.hash name) (some ((A (Hasher.hash name)).getD (name, fun _ => none)))

def put (A : Contents) (s : Int) (name value : Bytes) : Contents :=
  Function.update A s ((A s).map fun sec => (sec.1, sec.2.put name value))

end Contents

/-- What a line of a file says. -/
inductive Line
  | header (name : Bytes)
  | property (field value : Bytes)
  | other

/-- The meaning of a line; `none` where taking it apart goes wrong. -/
def meaning (line : Bytes) : Option Line :=
  if line.charAt 0 = 91 then (line.betweenChars 91 93).map .header
  else if line.charAt 0 = 35 ∨ line.charAt 0 = 59 then some .other
  else if 0 < line.countChar 61 then
    (unquote (line.«section» 61 1).trim).map (.property (line.«section» 61 0).trim)
  else some .other

/-- A line changes the contents, or the section that is current. -/
def step (x : Contents × Int) : Line → Contents × Int
  | .header name => (x.1.enter name, Hasher.hash name)
  | .property field value => (x.1.put x.2 field value, x.2)
  | .other => x

/-- The sections `m`, with the properties `c` of the one at each address. -/
structure Sections (p : IniParser) (m : List (Bytes × Ptr)) (c : Ptr → List (Bytes × Bytes)) : Prop where
  represents : Represents p.sections m
  live : ∀ x ∈ m, ∃ sec, p.heap x.2 = some sec ∧ sec.name = x.1 ∧ Represents sec.properties (c x.2)
  apart : (m.map Prod.snd).Nodup
  old : ∀ x ∈ m, x.2 < p.brk

def contents (m : List (Bytes × Ptr)) (c : Ptr → List (Bytes × Bytes)) : Contents := fun h =>
  (entry Hasher.hash m h).map fun x => (x.1, entry Hasher.hash (c x.2))

def Holds (p : IniParser) (A : Contents) : Prop := ∃ m c, Sections p m c ∧ A = contents m c

/-- The same with the current section. -/
def HoldsAt (p : IniParser) (s : Ptr) (x : Contents × Int) : Prop :=
  ∃ m c n, Sections p m c ∧ (n, s) ∈ m ∧ x = (contents m c, Hasher.hash n)

variable {Value : Type} {d : Dictionary Bytes Value} {mv : List (Bytes × Value)} {v : Value}
  {p : IniParser} {m : List (Bytes × Ptr)} {c : Ptr → List (Bytes × Bytes)} {n : Bytes} {s : Ptr} {A : Contents}
  {x : Contents × Int} {line : Bytes} {L : Line}

theorem valueAt_spec [Inhabited Value] (hd : Represents d mv) {key : Bytes}
    (hv : lookup Hasher.hash mv (Hasher.hash key) = some v) : valueAt d key = some (v, d) := by
  obtain ⟨q, d', e, hrun, he, hhash, hcase⟩ := index_spec hd key
  have hhas : has Hasher.hash mv (Hasher.hash key) = true := by rw [← lookup_isSome, hv]; rfl
  rw [if_pos hhas] at hcase
  subst hcase
  have hvalue := (entry_spec hd he).2
  rw [hhash, hv] at hvalue
  rw [valueAt, hrun]
  dsimp only [Option.bind_eq_bind, Option.bind_some]
  rw [he, Option.bind_some, Option.some.inj hvalue]

theorem Sections.distinct (hs : Sections p m c) : Distinct Hasher.hash m := hs.represents.distinct

theorem Sections.contents_of_mem (hs : Sections p m c) (hmem : (n, s) ∈ m) :
    contents m c (Hasher.hash n) = some (n, entry Hasher.hash (c s)) := by
  rw [contents, entry_of_mem hs.distinct hmem, Option.map_some]

/-- Two bindings with one address are the same. -/
theorem Sections.eq_of_snd (hs : Sections p m c) {y : Bytes × Ptr} (hy : y ∈ m) (hmem : (n, s) ∈ m) (he : y.2 = s) :
    y = (n, s) := List.inj_on_of_nodup_map hs.apart hy hmem he

theorem enter_of_some {y : Bytes × Properties} (h : A (Hasher.hash n) = some y) : A.enter n = A := by
  rw [Contents.enter, h, Option.getD_some, ← h, Function.update_eq_self]

theorem Sections.ne_brk (hs : Sections p m c) {y : Bytes × Ptr} (hy : y ∈ m) : y.2 ≠ p.brk := fun he =>
  Nat.lt_irrefl _ (he ▸ hs.old y hy)

/-- The sections with a new one behind them, which has no properties. -/
theorem Sections.snoc {sections : Dictionary Bytes Ptr} (hs : Sections p m c) (name : Bytes)
    (hsections : Represents sections (m ++ [(name, p.brk)])) :
    Sections { p.newSection name with sections } (m ++ [(name, p.brk)]) (Function.update c p.brk []) := by
  refine ⟨hsections, ?_, ?_, ?_⟩
  · intro y hy
    rcases List.mem_append.mp hy with hy | hy
    · obtain ⟨sec, hsec, hname, hprop⟩ := hs.live y hy
      refine ⟨sec, ?_, hname, ?_⟩
      · exact (Function.update_of_ne (hs.ne_brk hy) _ _).trans hsec
      · rw [Function.update_of_ne (hs.ne_brk hy)]
        exact hprop
    · obtain rfl := List.mem_singleton.mp hy
      refine ⟨⟨name, Dictionary.empty⟩, Function.update_self .., rfl, ?_⟩
      rw [Function.update_self]
      exact represents_empty
  · rw [List.map_append, List.map_singleton]
    refine List.nodup_append.mpr ⟨hs.apart, List.nodup_singleton _, ?_⟩
    intro a ha b hb he
    obtain ⟨y, hy, rfl⟩ := List.mem_map.mp ha
    exact hs.ne_brk hy (he.trans (List.mem_singleton.mp hb))
  · intro y hy
    rcases List.mem_append.mp hy with hy | hy
    · exact Nat.lt_succ_of_lt (hs.old y hy)
    · obtain rfl := List.mem_singleton.mp hy
      exact Nat.lt_succ_self _

theorem contents_snoc (hs : Sections p m c) {name : Bytes} (hhas : has Hasher.hash m (Hasher.hash name) = false) :
    contents (m ++ [(name, p.brk)]) (Function.update c p.brk []) = (contents m c).enter name := by
  have hnone : contents m c (Hasher.hash name) = none := by
    rw [contents, entry_eq_none_iff.mpr hhas, Option.map_none]
  funext h
  rw [contents, entry_snoc hhas, Contents.enter, hnone, Option.getD_none]
  split
  next hh =>
    rw [← hh, Function.update_self, Option.map_some, Function.update_self]
    rfl
  next hh =>
    rw [Function.update_of_ne fun he => hh he.symm, contents]
    cases hy : entry Hasher.hash m h with
    | none => rfl
    | some y => rw [Option.map_some, Option.map_some, Function.update_of_ne (hs.ne_brk (entry_some hy).1)]

theorem getSection_spec (hs : Sections p m c) (name : Bytes) :
    ∃ s p' m' c' n, p.getSection name = some (s, p') ∧ Sections p' m' c' ∧ (n, s) ∈ m' ∧
      (Hasher.hash n : Int) = Hasher.hash name ∧
      contents m' c' = (contents m c).enter name := by
  have hkey := hasKey_spec hs.represents name
  cases hentry : entry Hasher.hash m (Hasher.hash name) with
  | some y =>
    obtain ⟨n, s⟩ := y
    obtain ⟨hmem, hhash⟩ := entry_some hentry
    have hlookup : lookup Hasher.hash m (Hasher.hash name) = some s := congrArg (Option.map Prod.snd) hentry
    have hhas : has Hasher.hash m (Hasher.hash name) = true := by rw [← lookup_isSome, hlookup]; rfl
    refine ⟨s, p, m, c, n, ?_, hs, hmem, hhash, ?_⟩
    · rw [getSection, hkey, hhas]
      dsimp only [Option.bind_eq_bind, Option.bind_some, if_true]
      rw [valueAt_spec hs.represents hlookup]
      rfl
    · have hhere := hs.contents_of_mem hmem
      rw [hhash] at hhere
      exact (enter_of_some hhere).symm
  | none =>
    have hhas := entry_eq_none_iff.mp hentry
    obtain ⟨sections, hassign, hsections⟩ := assign_spec hs.represents name p.brk
    rw [KeyedList.assign, if_neg (by rw [hhas]; exact Bool.false_ne_true)] at hsections
    refine ⟨p.brk, { p.newSection name with sections }, m ++ [(name, p.brk)], Function.update c p.brk [],
      name, ?_, hs.snoc name hsections, List.mem_append_right _ List.mem_cons_self, rfl, contents_snoc hs hhas⟩
    rw [getSection, hkey, hhas]
    dsimp only [Option.bind_eq_bind, Option.bind_some]
    rw [if_neg Bool.false_ne_true, hassign, Option.bind_some, valueAt_spec hsections (lookup_snoc_self hhas)]
    rfl

theorem entry_put (b : List (Bytes × Bytes)) (name value : Bytes) :
    entry Hasher.hash (KeyedList.assign Hasher.hash b name value) =
      Properties.put (entry Hasher.hash b) name value := by
  funext k
  rw [entry_assign, Properties.put]
  split
  next hk => rw [← hk, Function.update_self]
  next hk => rw [Function.update_of_ne fun he => hk he.symm]

/-- The sections with other properties in the one at `s`. -/
theorem Sections.update (hs : Sections p m c) (hmem : (n, s) ∈ m) {sec : IniSection} (hsec : p.heap s = some sec)
    {properties : Dictionary Bytes Bytes} {b : List (Bytes × Bytes)} (hb : Represents properties b) :
    Sections { p with heap := Function.update p.heap s (some { sec with properties }) } m (Function.update c s b) := by
  refine ⟨hs.represents, ?_, hs.apart, hs.old⟩
  intro y hy
  obtain ⟨sec', hsec', hname', hprop'⟩ := hs.live y hy
  by_cases he : y.2 = s
  · obtain rfl := hs.eq_of_snd hy hmem he
    obtain rfl := Option.some.inj (hsec.symm.trans hsec')
    refine ⟨{ sec with properties }, Function.update_self .., hname', ?_⟩
    show Represents properties (Function.update c s b s)
    rw [Function.update_self]
    exact hb
  · refine ⟨sec', (Function.update_of_ne he _ _).trans hsec', hname', ?_⟩
    show Represents sec'.properties (Function.update c s b y.2)
    rw [Function.update_of_ne he]
    exact hprop'

theorem contents_update (hs : Sections p m c) (hmem : (n, s) ∈ m) (b : List (Bytes × Bytes)) :
    contents m (Function.update c s b) =
      Function.update (contents m c) (Hasher.hash n) (some (n, entry Hasher.hash b)) := by
  funext h
  by_cases hh : h = Hasher.hash n
  · rw [hh, Function.update_self, contents, entry_of_mem hs.distinct hmem, Option.map_some, Function.update_self]
  · rw [Function.update_of_ne hh, contents, contents]
    cases hy : entry Hasher.hash m h with
    | none => rfl
    | some y =>
      obtain ⟨hmem', hhash⟩ := entry_some hy
      have hne : y.2 ≠ s := by
        intro he
        rw [hs.eq_of_snd hmem' hmem he] at hhash
        exact hh hhash.symm
      rw [Option.map_some, Option.map_some, Function.update_of_ne hne]

theorem putString_spec (hs : Sections p m c) (hmem : (n, s) ∈ m) (name value : Bytes) :
    ∃ p' c', p.putString s name value = some p' ∧ Sections p' m c' ∧
      contents m c' = (contents m c).put (Hasher.hash n) name value := by
  obtain ⟨sec, hsec, hname, hprop⟩ := hs.live _ hmem
  obtain ⟨properties, hassign, hproperties⟩ := assign_spec hprop name value
  refine ⟨_, _, ?_, hs.update hmem hsec hproperties, ?_⟩
  · rw [putString, hsec]
    dsimp only [Option.bind_eq_bind, Option.bind_some]
    rw [hassign]
    rfl
  · rw [contents_update hs hmem, entry_put, Contents.put, hs.contents_of_mem hmem, Option.map_some]

/-- A parser without sections. -/
def fresh : IniParser := ⟨[], Dictionary.empty, fun _ => none, 1⟩

theorem sections_fresh : Sections fresh [] fun _ => [] :=
  ⟨represents_empty, fun _ h => absurd h List.not_mem_nil, List.nodup_nil, fun _ h => absurd h List.not_mem_nil⟩

/-- A round takes a line to its meaning, and goes wrong exactly where that does. Only a header changes the section. -/
theorem parseLine_spec (hs : HoldsAt p s x) (line : Bytes) :
    (meaning line = none → p.parseLine s line = none) ∧ ∀ L, meaning line = some L →
      ∃ p' s', p.parseLine s line = some (p', s') ∧ HoldsAt p' s' (step x L) ∧
        ((∀ name, L ≠ .header name) → s' = s) := by
  obtain ⟨m, c, n, hsec, hmem, rfl⟩ := hs
  unfold meaning parseLine
  split
  next =>
    cases hname : line.betweenChars 91 93 with
    | none => exact ⟨fun _ => rfl, fun L hL => by cases hL⟩
    | some name =>
      refine ⟨fun hnone => (Option.some_ne_none _ hnone).elim, fun L hL => ?_⟩
      cases hL
      obtain ⟨s', p', m', c', n', hrun, hsec', hmem', hhash, hcontents⟩ := getSection_spec hsec name
      obtain ⟨sec, hheap, hsame, -⟩ := hsec'.live _ hmem'
      obtain ⟨sections, hassign, hsections⟩ := assign_spec hsec'.represents sec.name s'
      rw [hsame, assign_eq_self hsec'.distinct hmem' rfl] at hsections
      refine ⟨{ p' with sections }, s', ?_,
        ⟨m', c', n', ⟨hsections, hsec'.live, hsec'.apart, hsec'.old⟩, hmem', ?_⟩, fun h => absurd rfl (h name)⟩
      · dsimp only [Option.bind_eq_bind, Option.bind_some]
        rw [hrun]
        dsimp only [Option.bind_some]
        rw [hheap, Option.bind_some, hassign]
        rfl
      · rw [step, hcontents, hhash]
  next =>
    split
    next =>
      refine ⟨fun hnone => (Option.some_ne_none _ hnone).elim, fun L hL => ?_⟩
      cases hL
      exact ⟨p, s, rfl, ⟨m, c, n, hsec, hmem, rfl⟩, fun _ => rfl⟩
    next =>
      split
      next =>
        cases hvalue : unquote (line.«section» 61 1).trim with
        | none => exact ⟨fun _ => rfl, fun L hL => by cases hL⟩
        | some value =>
          refine ⟨fun hnone => (Option.some_ne_none _ hnone).elim, fun L hL => ?_⟩
          cases hL
          obtain ⟨p', c', hrun, hsec', hcontents⟩ := putString_spec hsec hmem (line.«section» 61 0).trim value
          refine ⟨p', s, ?_, ⟨m, c', n, hsec', hmem, ?_⟩, fun _ => rfl⟩
          · dsimp only [Option.bind_eq_bind, Option.bind_some]
            rw [hrun]
            rfl
          · rw [step, hcontents]
      next =>
        refine ⟨fun hnone => (Option.some_ne_none _ hnone).elim, fun L hL => ?_⟩
        cases hL
        exact ⟨p, s, rfl, ⟨m, c, n, hsec, hmem, rfl⟩, fun _ => rfl⟩

end IniParser

end Srl
