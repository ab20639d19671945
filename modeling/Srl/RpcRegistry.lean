import Srl.DictionaryIteration
import Srl.XmlRpcProtocol

namespace Srl

namespace Dictionary

variable {Key Value β : Type}

/-- An iteration from `begin()` to `end()` that appends what `f` gives for each entry. -/
def collectLoop (d : Dictionary Key Value) (f : Key → Value → Option (List β)) : Nat → Ptr → Option (List β)
  | 0, _ => none
  | fuel + 1, iter =>
    if iter = NULL then some []
    else do
      let e ← d.heap iter
      let xs ← f e.key e.value
      let ys ← d.collectLoop f fuel e.next
      some (xs ++ ys)

def collect (d : Dictionary Key Value) (f : Key → Value → Option (List β)) : Option (List β) :=
  d.collectLoop f d.brk d.begin

open SearchTree LinkedList

variable [Hasher Key] {d : Dictionary Key Value} {t : BinTree Color} {xs ys : List Ptr}
  {f : Key → Value → Option (List β)}
  {g : Key × Value → List β}

theorem Shape.collectLoop_eq {fuel : Nat} (hS : Shape d t (xs ++ ys)) (hfuel : ys.length < fuel)
    (hf : ∀ b ∈ d.contents ys, f b.1 b.2 = some (g b)) :
    d.collectLoop f fuel (ys.head?.getD NULL) = some ((d.contents ys).flatMap g) := by
  induction ys generalizing xs fuel with
  | nil =>
    obtain ⟨fuel, rfl⟩ := Nat.exists_eq_add_of_lt hfuel
    simp [collectLoop]
  | cons a ys ih =>
    obtain ⟨fuel, rfl⟩ := Nat.exists_eq_add_of_lt hfuel
    obtain ⟨e, he, hnext, hnull⟩ := hS.entry_next
    rw [contents_cons he] at hf
    have hfirst : f e.key e.value = some (g (e.key, e.value)) := hf (e.key, e.value) List.mem_cons_self
    have hrest : d.collectLoop f ((a :: ys).length + fuel) e.next = some ((d.contents ys).flatMap g) := by
      rw [hnext]
      refine @ih (xs ++ [a]) _ (by simpa using hS) ?_ fun b hb => hf b (List.mem_cons_of_mem _ hb)
      rw [List.length_cons]
      omega
    rw [contents_cons he, List.flatMap_cons, List.head?_cons, Option.getD_some, collectLoop, if_neg hnull, he]
    simp only [Option.bind_eq_bind, Option.bind_some, hfirst, hrest]

/-- An iteration sees the bindings in the order of their insertion. -/
theorem Represents.collect_eq {m : List (Key × Value)} (hd : Represents d m) (hf : ∀ b ∈ m, f b.1 b.2 = some (g b)) :
    d.collect f = some (m.flatMap g) := by
  obtain ⟨t, order, hS, rfl⟩ := hd
  rw [← List.nil_append order] at hS
  rw [collect, hS.begin_eq]
  exact hS.collectLoop_eq hS.length_lt hf

end Dictionary

namespace RpcRegistry

open XmlRpc

/-- What the calls of this file throw. -/
inductive RpcException where
  | IOException (message : Bytes)
  | dictionary (e : DictException)
  deriving DecidableEq

/-- A method object with its name and what its `execute` does. -/
structure RpcMethod where
  name : Bytes
  execute : XmlRpc.RpcMethod

/-- A service is a dictionary of pointers to methods. -/
structure RpcService where
  name : Bytes
  methods : Dictionary Bytes Ptr

/-- The objects by their addresses and the dictionary of a protocol. -/
structure RpcProtocol where
  method : Ptr → RpcMethod
  service : Ptr → RpcService
  services : Dictionary Bytes Ptr

/-- `addMethod` and `addService` on their dictionary; `none` where a bad pointer is followed. -/
def enlist (message : String) (d : Dictionary Bytes Ptr) (name : Bytes) (p : Ptr) :
    Option (Except RpcException (Dictionary Bytes Ptr)) := do
  if !(← d.hasKey name) then
    let r ← d.add name p
    some (r.mapError RpcException.dictionary)
  else some (.error (.IOException (bytes message)))

/-- `removeMethod` and `removeService` on their dictionary, with the test as it stands. -/
def delist (d : Dictionary Bytes Ptr) (name : Bytes) : Option (Except RpcException (Dictionary Bytes Ptr)) := do
  if !(← d.hasKey name) then
    let r ← d.remove name
    some (r.mapError RpcException.dictionary)
  else some (.ok d)

namespace RpcService

def addMethod (s : RpcService) (name : Bytes) (method : Ptr) : Option (Except RpcException RpcService) := do
  let r ← enlist "failed to add method to service because a method with that name already exists" s.methods name method
  some (r.map fun methods => { s with methods := methods })

def removeMethod (s : RpcService) (method_name : Bytes) : Option (Except RpcException RpcService) := do
  let r ← delist s.methods method_name
  some (r.map fun methods => { s with methods := methods })

def hasMethod (s : RpcService) (method_name : Bytes) : Option Bool := s.methods.hasKey method_name

def listMethods (s : RpcService) : Option (List RpcValue) :=
  s.methods.collect fun key _ => some [.ofString (Format (bytes "%s.%s") [s.name, key])]

end RpcService

namespace RpcProtocol

def addService (p : RpcProtocol) (s : Ptr) : Option (Except RpcException RpcProtocol) := do
  let r ← enlist "failed to add service to protocol because a service with that name already exists" p.services
    (p.service s).name s
  some (r.map fun services => { p with services := services })

def removeService (p : RpcProtocol) (name : Bytes) : Option (Except RpcException RpcProtocol) := do
  let r ← delist p.services name
  some (r.map fun services => { p with services := services })

def hasService (p : RpcProtocol) (name : Bytes) : Option Bool := p.services.hasKey name

def listMethods (p : RpcProtocol) : Option RpcValue := do
  let list ← p.services.collect fun _ s => (p.service s).listMethods
  some (.array list)

/-- The pointer that `Dictionary::get` returns, or `none` where it throws. -/
def lookup (d : Dictionary Bytes Ptr) (key : Bytes) : Option Ptr := do
  match ← d.get key with
  | .ok p => some p
  | .error _ => none

def getMethod (p : RpcProtocol) (service_name method_name : Bytes) : Option Ptr := do
  if ← p.services.hasKey service_name then
    let s ← lookup p.services service_name
    if ← (p.service s).hasMethod method_name then lookup (p.service s).methods method_name else some NULL
  else some NULL

/-- `RpcService::execute` of the service object `s`. -/
def executeIn (p : RpcProtocol) (s : Ptr) (method_name : Bytes) (args : List RpcValue) :
    Option (Except XmlRpc.Thrown RpcValue) := do
  if ← (p.service s).methods.hasKey method_name then
    let m ← lookup (p.service s).methods method_name
    some ((p.method m).execute args)
  else some (.ok .NULL)

def execute (p : RpcProtocol) (service_name method_name : Bytes) (args : List RpcValue) :
    Option (Except XmlRpc.Thrown RpcValue) := do
  if ← p.services.hasKey service_name then
    let s ← lookup p.services service_name
    p.executeIn s method_name args
  else some (.ok .NULL)

end RpcProtocol

/-- The calls that change a registry: of the protocol, or of one of its services. -/
inductive Op where
  | addService (s : Ptr)
  | removeService (name : Bytes)
  | addMethod (s m : Ptr)
  | removeMethod (s : Ptr) (name : Bytes)

/-- The registry after a call that returns or throws. -/
def Op.apply (p : RpcProtocol) : Op → Option (Except RpcException RpcProtocol)
  | .addService s => p.addService s
  | .removeService name => p.removeService name
  | .addMethod s m => do
    let r ← (p.service s).addMethod (p.method m).name m
    some (r.map fun service => { p with service := Function.update p.service s service })
  | .removeMethod s name => do
    let r ← (p.service s).removeMethod name
    some (r.map fun service => { p with service := Function.update p.service s service })

def step (p : RpcProtocol) (op : Op) : Option RpcProtocol := do
  match ← op.apply p with
  | .ok p => some p
  | .error _ => some p

def run (p : RpcProtocol) (ops : List Op) : Option RpcProtocol := ops.foldlM step p

/-- A name is listed for the first pointer that comes with it. -/
def listed (name : Ptr → Bytes) (ps : List Ptr) : List (Bytes × Ptr) :=
  ps.foldl (fun m p => if KeyedList.has Hasher.hash m (Hasher.hash (name p)) then m else m ++ [(name p, p)]) []

def Op.service? : Op → Option Ptr
  | .addService s => some s
  | _ => none

def Op.method? (s : Ptr) : Op → Option Ptr
  | .addMethod s' m => if s' = s then some m else none
  | _ => none

variable {d : Dictionary Bytes Ptr} {m : List (Bytes × Ptr)} {p₀ p : RpcProtocol} {ops : List Op}

theorem enlist_spec (message : String) (hd : Dictionary.Represents d m) (name : Bytes) (q : Ptr) :
    if KeyedList.has Hasher.hash m (Hasher.hash name) then
      enlist message d name q = some (.error (.IOException (bytes message)))
    else ∃ d', enlist message d name q = some (.ok d') ∧ Dictionary.Represents d' (m ++ [(name, q)]) := by
  have hkey := Dictionary.hasKey_spec hd name
  have hadd := Dictionary.add_spec hd name q
  split
  next hh =>
    rw [hh] at hkey
    simp [enlist, hkey]
  next hh =>
    rw [if_neg hh] at hadd
    obtain ⟨d', hd', hrep⟩ := hadd
    rw [Bool.not_eq_true] at hh
    rw [hh] at hkey
    exact ⟨d', by simp [enlist, hkey, hd', Except.mapError], hrep⟩

/-- Nothing is ever taken out: a name that is there stays, and one that is not is searched for in vain. -/
theorem delist_spec (hd : Dictionary.Represents d m) (name : Bytes) :
    delist d name = some (if KeyedList.has Hasher.hash m (Hasher.hash name) then .ok d
      else .error (.dictionary Dictionary.doesNotExist)) := by
  have hkey := Dictionary.hasKey_spec hd name
  have hremove := Dictionary.remove_spec hd name
  split
  next hh =>
    rw [hh] at hkey
    simp [delist, hkey]
  next hh =>
    rw [if_neg hh] at hremove
    rw [Bool.not_eq_true] at hh
    rw [hh] at hkey
    simp [delist, hkey, hremove, Except.mapError]

theorem listed_concat (name : Ptr → Bytes) (ps : List Ptr) (q : Ptr) : listed name (ps ++ [q]) =
    if KeyedList.has Hasher.hash (listed name ps) (Hasher.hash (name q)) then listed name ps
    else listed name ps ++ [(name q, q)] := by
  rw [listed, List.foldl_append]
  rfl

/-- What a run of calls has made of the objects `p₀`. -/
structure Stands (p₀ p : RpcProtocol) (ops : List Op) : Prop where
  method : p.method = p₀.method
  name : ∀ s, (p.service s).name = (p₀.service s).name
  services : Dictionary.Represents p.services (listed (fun s => (p₀.service s).name) (ops.filterMap Op.service?))
  methods : ∀ s, Dictionary.Represents (p.service s).methods
    (listed (fun m => (p₀.method m).name) (ops.filterMap (Op.method? s)))

theorem filterMap_concat_none {f : Op → Option Ptr} {op : Op} (h : f op = none) :
    (ops ++ [op]).filterMap f = ops.filterMap f := by
  rw [List.filterMap_append, List.filterMap_cons_none h, List.filterMap_nil, List.append_nil]

theorem Stands.addService (h : Stands p₀ p ops) (s : Ptr) :
    ∃ p', step p (.addService s) = some p' ∧ Stands p₀ p' (ops ++ [.addService s]) := by
  have hrest : ∀ s', (ops ++ [Op.addService s]).filterMap (Op.method? s') = ops.filterMap (Op.method? s') := by
    intro s'
    exact filterMap_concat_none rfl
  have hlist := listed_concat (fun s => (p₀.service s).name) (ops.filterMap Op.service?) s
  have henlist := enlist_spec "failed to add service to protocol because a service with that name already exists"
    h.services (p.service s).name s
  rw [h.name s] at henlist
  split at henlist
  next hh =>
    rw [if_pos hh] at hlist
    refine ⟨p, by simp [step, Op.apply, RpcProtocol.addService, h.name, henlist, Except.map], h.method, h.name, ?_, ?_⟩
    · simpa [List.filterMap_append, Op.service?, hlist] using h.services
    · simpa only [hrest] using h.methods
  next hh =>
    rw [if_neg hh] at hlist
    obtain ⟨d', hrun, hd'⟩ := henlist
    refine ⟨{ p with services := d' }, by simp [step, Op.apply, RpcProtocol.addService, h.name, hrun, Except.map],
      h.method, h.name, ?_, ?_⟩
    · simpa [List.filterMap_append, Op.service?, hlist] using hd'
    · simpa only [hrest] using h.methods

theorem Stands.removeService (h : Stands p₀ p ops) (name : Bytes) :
    ∃ p', step p (.removeService name) = some p' ∧ Stands p₀ p' (ops ++ [.removeService name]) := by
  have hdelist := delist_spec h.services name
  refine ⟨p, ?_, h.method, h.name, ?_, ?_⟩
  · simp only [step, Op.apply, RpcProtocol.removeService, hdelist]
    split <;> rfl
  · rw [filterMap_concat_none rfl]
    exact h.services
  · intro s'
    rw [filterMap_concat_none rfl]
    exact h.methods s'

theorem Stands.addMethod (h : Stands p₀ p ops) (s q : Ptr) :
    ∃ p', step p (.addMethod s q) = some p' ∧ Stands p₀ p' (ops ++ [.addMethod s q]) := by
  have hservices : (ops ++ [Op.addMethod s q]).filterMap Op.service? = ops.filterMap Op.service? :=
    filterMap_concat_none rfl
  have hother : ∀ s', s' ≠ s →
      (ops ++ [Op.addMethod s q]).filterMap (Op.method? s') = ops.filterMap (Op.method? s') := by
    intro s' hne
    exact filterMap_concat_none (if_neg (Ne.symm hne))
  have hthis : (ops ++ [Op.addMethod s q]).filterMap (Op.method? s) = ops.filterMap (Op.method? s) ++ [q] := by
    simp [List.filterMap_append, Op.method?]
  have hlist := listed_concat (fun m => (p₀.method m).name) (ops.filterMap (Op.method? s)) q
  have henlist := enlist_spec "failed to add method to service because a method with that name already exists"
    (h.methods s) (p.method q).name q
  rw [h.method] at henlist
  split at henlist
  next hh =>
    rw [if_pos hh] at hlist
    refine ⟨p, by simp [step, Op.apply, RpcService.addMethod, h.method, henlist, Except.map], h.method, h.name, ?_, ?_⟩
    · rw [hservices]
      exact h.services
    · intro s'
      by_cases hs : s' = s
      · subst hs
        rw [hthis, hlist]
        exact h.methods s'
      · rw [hother s' hs]
        exact h.methods s'
  next hh =>
    rw [if_neg hh] at hlist
    obtain ⟨d', hrun, hd'⟩ := henlist
    refine ⟨{ p with service := Function.update p.service s { p.service s with methods := d' } },
      by simp [step, Op.apply, RpcService.addMethod, h.method, hrun, Except.map], h.method, ?_, ?_, ?_⟩
    · intro s'
      by_cases hs : s' = s
      · subst hs
        simpa using h.name s'
      · simpa [Function.update_of_ne hs] using h.name s'
    · rw [hservices]
      exact h.services
    · intro s'
      by_cases hs : s' = s
      · subst hs
        rw [hthis, hlist]
        simpa using hd'
      · rw [hother s' hs]
        simpa [Function.update_of_ne hs] using h.methods s'

theorem Stands.removeMethod (h : Stands p₀ p ops) (s : Ptr) (name : Bytes) :
    ∃ p', step p (.removeMethod s name) = some p' ∧ Stands p₀ p' (ops ++ [.removeMethod s name]) := by
  have hdelist := delist_spec (h.methods s) name
  refine ⟨p, ?_, h.method, h.name, ?_, ?_⟩
  · simp only [step, Op.apply, RpcService.removeMethod, hdelist]
    split
    · simp [Except.map]
    · rfl
  · rw [filterMap_concat_none rfl]
    exact h.services
  · intro s'
    rw [filterMap_concat_none rfl]
    exact h.methods s'

theorem Stands.step (h : Stands p₀ p ops) (op : Op) : ∃ p', step p op = some p' ∧ Stands p₀ p' (ops ++ [op]) := by
  cases op with
  | addService s => exact h.addService s
  | removeService name => exact h.removeService name
  | addMethod s q => exact h.addMethod s q
  | removeMethod s name => exact h.removeMethod s name

/-- The objects before any call: no dictionary has an entry. -/
def RpcProtocol.fresh (method : Ptr → RpcMethod) (name : Ptr → Bytes) : RpcProtocol :=
  { method := method, service := fun s => ⟨name s, .empty⟩, services := .empty }

theorem run_stands (method : Ptr → RpcMethod) (name : Ptr → Bytes) (ops : List Op) :
    ∃ p, run (.fresh method name) ops = some p ∧ Stands (.fresh method name) p ops := by
  induction ops using List.reverseRecOn with
  | nil => exact ⟨_, rfl, rfl, fun _ => rfl, Dictionary.represents_empty, fun _ => Dictionary.represents_empty⟩
  | append_singleton ops op ih =>
    obtain ⟨p, hrun, hp⟩ := ih
    obtain ⟨p', hstep, hp'⟩ := hp.step op
    refine ⟨p', ?_, hp'⟩
    rw [run] at hrun ⊢
    rw [List.foldlM_append, hrun]
    simpa using hstep

/-- The methods that a run has put into a service. -/
def methodsOf (p₀ : RpcProtocol) (ops : List Op) (s : Ptr) : List (Bytes × Ptr) :=
  listed (fun m => (p₀.method m).name) (ops.filterMap (Op.method? s))

/-- The services that a run has put into the protocol. -/
def servicesOf (p₀ : RpcProtocol) (ops : List Op) : List (Bytes × Ptr) :=
  listed (fun s => (p₀.service s).name) (ops.filterMap Op.service?)

/-- The lists of services and methods that the handler of requests works with. -/
def catalog (p₀ : RpcProtocol) (ops : List Op) : List (Bytes × XmlRpc.RpcService) :=
  (servicesOf p₀ ops).map fun s => (s.1, (methodsOf p₀ ops s.2).map fun m => (m.1, (p₀.method m.2).execute))

theorem lookup_map {α β : Type} (f : α → β) (m : List (Bytes × α)) (h : Int) :
    KeyedList.lookup Hasher.hash (m.map fun b => (b.1, f b.2)) h = (KeyedList.lookup Hasher.hash m h).map f := by
  induction m with
  | nil => rfl
  | cons b m ih =>
    rw [List.map_cons, KeyedList.lookup_cons, KeyedList.lookup_cons, ih]
    split <;> rfl

theorem lookup_eq (hd : Dictionary.Represents d m) (key : Bytes) :
    RpcProtocol.lookup d key = KeyedList.lookup Hasher.hash m (Hasher.hash key) := by
  have hget := Dictionary.get_spec hd key
  cases hl : KeyedList.lookup Hasher.hash m (Hasher.hash key) <;> simp [RpcProtocol.lookup, hget, hl, Dictionary.answer]

/-- A question that is asked of the binding of a key, where there is one. -/
theorem ask_eq {α : Type} (hd : Dictionary.Represents d m) (key : Bytes) (f : Ptr → Option α) (a : α) :
    (d.hasKey key).bind (fun b => if b = true then (RpcProtocol.lookup d key).bind f else some a) =
      match KeyedList.lookup Hasher.hash m (Hasher.hash key) with
      | some q => f q
      | none => some a := by
  rw [Dictionary.hasKey_spec hd, lookup_eq hd, ← KeyedList.lookup_isSome]
  cases KeyedList.lookup Hasher.hash m (Hasher.hash key) <;> rfl

theorem Stands.getMethod (h : Stands p₀ p ops) (service_name method_name : Bytes) :
    p.getMethod service_name method_name = some (((KeyedList.lookup Hasher.hash (servicesOf p₀ ops)
      (Hasher.hash service_name)).bind fun s => KeyedList.lookup Hasher.hash (methodsOf p₀ ops s)
        (Hasher.hash method_name)).getD NULL) := by
  have hservice := ask_eq h.services service_name (fun s => ((p.service s).hasMethod method_name).bind fun b =>
    if b = true then RpcProtocol.lookup (p.service s).methods method_name else some NULL) NULL
  rw [servicesOf]
  refine Eq.trans hservice ?_
  cases KeyedList.lookup Hasher.hash (listed (fun s => (p₀.service s).name) (ops.filterMap Op.service?))
      (Hasher.hash service_name) with
  | none => rfl
  | some s =>
    have hmethod := ask_eq (h.methods s) method_name some NULL
    simp only [Option.bind_fun_some] at hmethod
    refine Eq.trans hmethod ?_
    rw [Option.bind_some, methodsOf]
    cases KeyedList.lookup Hasher.hash (listed (fun m => (p₀.method m).name) (ops.filterMap (Op.method? s)))
      (Hasher.hash method_name) <;> rfl

theorem Stands.executeIn (h : Stands p₀ p ops) (s : Ptr) (method_name : Bytes) (args : List RpcValue) :
    p.executeIn s method_name args = some (XmlRpc.RpcService.execute
      ((methodsOf p₀ ops s).map fun m => (m.1, (p₀.method m.2).execute)) method_name args) := by
  have hask := ask_eq (h.methods s) method_name (fun m => some ((p.method m).execute args)) (.ok .NULL)
  rw [XmlRpc.RpcService.execute, lookup_map (fun m => (p₀.method m).execute)]
  refine Eq.trans hask ?_
  rw [methodsOf, h.method]
  cases KeyedList.lookup Hasher.hash (listed (fun m => (p₀.method m).name) (ops.filterMap (Op.method? s)))
    (Hasher.hash method_name) <;> rfl

theorem Stands.execute (h : Stands p₀ p ops) (service_name method_name : Bytes) (args : List RpcValue) :
    p.execute service_name method_name args =
      some (match KeyedList.lookup Hasher.hash (catalog p₀ ops) (Hasher.hash service_name) with
        | some service => XmlRpc.RpcService.execute service method_name args
        | none => .ok .NULL) := by
  have hask := ask_eq h.services service_name (fun s => p.executeIn s method_name args) (.ok .NULL)
  rw [catalog, lookup_map (fun s => (methodsOf p₀ ops s).map fun m => (m.1, (p₀.method m.2).execute)), servicesOf]
  refine Eq.trans hask ?_
  cases KeyedList.lookup Hasher.hash (listed (fun s => (p₀.service s).name) (ops.filterMap Op.service?))
      (Hasher.hash service_name) with
  | none => rfl
  | some s => exact h.executeIn s method_name args

theorem mem_listed {name : Ptr → Bytes} {ps : List Ptr} {b : Bytes × Ptr} (h : b ∈ listed name ps) :
    b.1 = name b.2 := by
  induction ps using List.reverseRecOn with
  | nil => cases h
  | append_singleton ps q ih =>
    rw [listed_concat] at h
    split at h
    · exact ih h
    · obtain h | h := List.mem_append.mp h
      · exact ih h
      · rw [List.mem_singleton.mp h]

theorem Stands.listMethods (h : Stands p₀ p ops) (logsInfo : Bool) (hostName : Bytes) :
    p.listMethods = some (XmlRpcProtocol.listMethods ⟨catalog p₀ ops, logsInfo, hostName⟩) := by
  have hservice : ∀ b ∈ servicesOf p₀ ops, (p.service b.2).listMethods =
      some ((methodsOf p₀ ops b.2).map fun m => .ofString (Format (bytes "%s.%s") [b.1, m.1])) := by
    intro b hb
    have hcollect := (h.methods b.2).collect_eq (f := fun key _ =>
      some [RpcValue.ofString (Format (bytes "%s.%s") [(p.service b.2).name, key])])
      (g := fun m => [.ofString (Format (bytes "%s.%s") [b.1, m.1])]) (by
        intro m _
        rw [h.name, mem_listed hb])
    rw [RpcService.listMethods, hcollect, methodsOf, ← List.map_eq_flatMap]
  have hcollect := h.services.collect_eq (f := fun _ s => (p.service s).listMethods) hservice
  rw [RpcProtocol.listMethods, hcollect, XmlRpcProtocol.listMethods, catalog, List.flatMap_map]
  simp only [Option.bind_eq_bind, Option.bind_some, List.map_map]
  rfl

theorem listed_append (name : Ptr → Bytes) (ps qs : List Ptr) :
    ∃ more, listed name (ps ++ qs) = listed name ps ++ more := by
  induction qs using List.reverseRecOn with
  | nil => exact ⟨[], by simp⟩
  | append_singleton qs q ih =>
    obtain ⟨more, hmore⟩ := ih
    rw [← List.append_assoc, listed_concat, hmore]
    split
    · exact ⟨more, rfl⟩
    · exact ⟨more ++ [(name q, q)], by rw [List.append_assoc]⟩

theorem lookup_listed {name : Ptr → Bytes} {ps : List Ptr} {h : Int} {q : Ptr} (qs : List Ptr)
    (hq : KeyedList.lookup Hasher.hash (listed name ps) h = some q) :
    KeyedList.lookup Hasher.hash (listed name (ps ++ qs)) h = some q := by
  obtain ⟨more, hmore⟩ := listed_append name ps qs
  rw [hmore, KeyedList.lookup_append, hq]
  rfl

/-- A method that is found is found by every later call, whatever is removed in between; to remove a service that is
there does nothing, and to remove one that is not throws. -/
theorem run_keeps (method : Ptr → RpcMethod) (name : Ptr → Bytes) (ops more : List Op) : ∃ p p',
    run (.fresh method name) ops = some p ∧ run (.fresh method name) (ops ++ more) = some p' ∧
    (∀ service_name method_name q, p.getMethod service_name method_name = some q → q ≠ NULL →
      p'.getMethod service_name method_name = some q) ∧
    ∀ service_name, ∃ there, p.hasService service_name = some there ∧ (Op.removeService service_name).apply p =
      some (if there then .ok p else .error (.dictionary Dictionary.doesNotExist)) := by
  obtain ⟨p, hrun, hp⟩ := run_stands method name ops
  obtain ⟨p', hrun', hp'⟩ := run_stands method name (ops ++ more)
  refine ⟨p, p', hrun, hrun', ?_, ?_⟩
  · intro service_name method_name q hq hnull
    rw [hp.getMethod] at hq
    rw [hp'.getMethod]
    have hq := Option.some.inj hq
    cases hs : KeyedList.lookup Hasher.hash (servicesOf (.fresh method name) ops) (Hasher.hash service_name) with
    | none =>
      rw [hs] at hq
      exact absurd hq.symm hnull
    | some s =>
      cases hm : KeyedList.lookup Hasher.hash (methodsOf (.fresh method name) ops s) (Hasher.hash method_name) with
      | none =>
        rw [hs, Option.bind_some, hm] at hq
        exact absurd hq.symm hnull
      | some q' =>
        rw [hs, Option.bind_some, hm] at hq
        rw [servicesOf, List.filterMap_append, lookup_listed _ hs, Option.bind_some, methodsOf, List.filterMap_append,
          lookup_listed _ hm]
        exact congrArg some hq
  · intro service_name
    refine ⟨_, Dictionary.hasKey_spec hp.services service_name, ?_⟩
    simp only [Op.apply, RpcProtocol.removeService, delist_spec hp.services service_name]
    split <;> rfl

end RpcRegistry

end Srl
