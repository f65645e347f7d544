import Castle.Container.ForwardList.Lists

/-!
# Runs of a forward list

The mutators on the list of the live nodes with their values, and what holds in every state
that the mutators reach with positions of live nodes.
-/

namespace Castle.Container.ForwardList

variable {cap : Capacity} {T : Type}

/-- A call; a position is what an iterator points to. -/
inductive Op (cap : Capacity) (T : Type) where
  | pushFront (value : T)
  | emplaceAfter (position : Option (NodeBase cap)) (value : T)
  | eraseAfter (position : Option (NodeBase cap))
  | popFront
  | remove (value : T)
  | reverse
  | clear

inductive Reply (cap : Capacity) where
  | status (s : Status)
  | position (p : Option (Fin cap.size))
  | nothing
  deriving DecidableEq

def apply [BEq T] (s : ForwardList cap T) : Op cap T → Option (Reply cap × ForwardList cap T)
  | .pushFront value =>
    let (status, s) := s.pushFront value
    some (.status status, s)
  | .emplaceAfter position value =>
    let (status, s) := s.emplaceAfter position value
    some (.status status, s)
  | .eraseAfter position => do
    let (result, s) ← s.eraseAfter position
    some (.position result, s)
  | .popFront => do
    let (status, s) ← s.popFront
    some (.status status, s)
  | .remove value => do
    let (status, s) ← s.remove value
    some (.status status, s)
  | .reverse => do
    let s ← s.reverse
    some (.nothing, s)
  | .clear => do
    let s ← s.clear
    some (.nothing, s)

def behindNode (i : Fin cap.size) : List (Entry cap T) → List (Entry cap T)
  | [] => []
  | e :: list => if e.1 = i then list else behindNode i list

def upToNode (i : Fin cap.size) : List (Entry cap T) → List (Entry cap T)
  | [] => []
  | e :: list => if e.1 = i then [e] else e :: upToNode i list

/-- The elements behind a position. -/
def behind (list : List (Entry cap T)) : NodeBase cap → List (Entry cap T)
  | .before => list
  | .node i => behindNode i list

/-- The elements up to a position. -/
def upTo (list : List (Entry cap T)) : NodeBase cap → List (Entry cap T)
  | .before => []
  | .node i => upToNode i list

/-- The position of `before_` or of an element of the list. -/
def OnList (list : List (Entry cap T)) : NodeBase cap → Prop
  | .before => True
  | .node i => i ∈ nodesOf list

/-- Positions are null, `before_begin()` or those of live nodes. -/
def Op.Usable (list : List (Entry cap T)) : Op cap T → Prop
  | .emplaceAfter (some p) _ | .eraseAfter (some p) => OnList list p
  | _ => True

/-- A new element with the given value behind a position, in a node that was free. -/
def Inserted (p : NodeBase cap) (value : T) (list list' : List (Entry cap T)) : Prop :=
  ∃ k, k ∉ nodesOf list ∧ list' = upTo list p ++ (k, value) :: behind list p

/-- What a call returns and makes of the list. -/
def Op.Changes [BEq T] (list : List (Entry cap T)) (reply : Reply cap)
    (list' : List (Entry cap T)) : Op cap T → Prop
  | .pushFront value =>
    if list.length = cap.size then reply = .status .full ∧ list' = list
    else reply = .status .ok ∧ Inserted .before value list list'
  | .emplaceAfter none _ => reply = .status .outOfRange ∧ list' = list
  | .emplaceAfter (some p) value =>
    if list.length = cap.size then reply = .status .full ∧ list' = list
    else reply = .status .ok ∧ Inserted p value list list'
  | .eraseAfter none => reply = .position none ∧ list' = list
  | .eraseAfter (some p) =>
    reply = .position (nodesOf (behind list p).tail).head? ∧
      list' = upTo list p ++ (behind list p).tail
  | .popFront => reply = .status (if list = [] then .empty else .ok) ∧ list' = list.tail
  | .remove value => reply = .status .ok ∧ list' = list.filter fun e => !(e.2 == value)
  | .reverse => reply = .nothing ∧ list' = list.reverse
  | .clear => reply = .nothing ∧ list' = []

/-- The states that calls reach with usable positions. -/
inductive Reachable [BEq T] : ForwardList cap T → Prop where
  | init : Reachable init
  | step {s s' : ForwardList cap T} {list : List (Entry cap T)} {op : Op cap T}
      {reply : Reply cap} (h : Reachable s) (hlist : s.entries = some list)
      (husable : op.Usable list) (hstep : s.apply op = some (reply, s')) : Reachable s'

variable {s : ForwardList cap T} {list : List (Entry cap T)} {free : List (Fin cap.size)}

theorem upTo_append_behind {p : NodeBase cap} (hp : OnList list p) :
    upTo list p ++ behind list p = list := by
  cases p with
  | before => rfl
  | node i =>
    simp only [upTo, behind]
    induction list with
    | nil => rfl
    | cons e list ih =>
      unfold upToNode behindNode
      split_ifs with h
      · rfl
      · rw [List.cons_append, ih]
        exact (List.mem_cons.mp hp).resolve_left fun he => h he.symm

theorem positionOf_upTo {p : NodeBase cap} (hp : OnList list p) : positionOf (upTo list p) = p := by
  cases p with
  | before => rfl
  | node i =>
    simp only [upTo]
    induction list with
    | nil => exact absurd hp List.not_mem_nil
    | cons e list ih =>
      unfold upToNode
      split_ifs with h
      · exact congrArg NodeBase.node h
      · have hpos := ih ((List.mem_cons.mp hp).resolve_left fun he => h he.symm)
        cases hup : upToNode i list with
        | nil =>
          rw [hup] at hpos
          cases hpos
        | cons e' front =>
          rw [hup] at hpos
          simpa [positionOf] using hpos

theorem Rep.emplaceAfter (h : Rep s list free) {p : NodeBase cap} (hp : OnList list p) (value : T) :
    (list.length = cap.size ∧ s.emplaceAfter (some p) value = (.full, s)) ∨ list.length ≠ cap.size ∧
    (s.emplaceAfter (some p) value).1 = .ok ∧ ∃ list' free', Inserted p value list list' ∧
    Rep (s.emplaceAfter (some p) value).2 list' free' := by
  have hlen := h.length_add
  cases free with
  | nil => exact Or.inl ⟨by simpa using hlen, emplaceAfter_full h p value⟩
  | cons k free =>
    have hlt : list.length ≠ cap.size := by rw [List.length_cons] at hlen; omega
    have hk : k ∉ nodesOf list := fun hm =>
      (List.nodup_append.mp h.nodup).2.2 k hm k List.mem_cons_self rfl
    have hsplit := h
    rw [← upTo_append_behind hp] at hsplit
    obtain ⟨hok, hrep⟩ := emplaceAfter_rep hsplit value
    rw [positionOf_upTo hp] at hok hrep
    exact Or.inr ⟨hlt, hok, _, free, ⟨k, hk, rfl⟩, hrep⟩

theorem Rep.apply [BEq T] (h : Rep s list free) (op : Op cap T) (husable : op.Usable list) :
    ∃ reply s' list' free', s.apply op = some (reply, s') ∧ Rep s' list' free' ∧
      op.Changes list reply list' := by
  cases op with
  | pushFront value =>
    rcases h.emplaceAfter (p := .before) trivial value with
      ⟨hfull, hrun⟩ | ⟨hroom, hok, list', free', hin, hrep⟩
    · refine ⟨.status .full, s, list, free, by simp only [ForwardList.apply, pushFront, hrun], h, ?_⟩
      simp [Op.Changes, hfull]
    · refine ⟨_, _, list', free', rfl, hrep, ?_⟩
      simp only [Op.Changes, if_neg hroom]
      exact ⟨congrArg Reply.status hok, hin⟩
  | emplaceAfter position value =>
    cases position with
    | none => exact ⟨_, s, list, free, rfl, h, rfl, rfl⟩
    | some p =>
      rcases h.emplaceAfter husable value with ⟨hfull, hrun⟩ | ⟨hroom, hok, list', free', hin, hrep⟩
      · refine ⟨.status .full, s, list, free, by simp only [ForwardList.apply, hrun], h, ?_⟩
        simp [Op.Changes, hfull]
      · refine ⟨_, _, list', free', rfl, hrep, ?_⟩
        simp only [Op.Changes, if_neg hroom]
        exact ⟨congrArg Reply.status hok, hin⟩
  | eraseAfter position =>
    cases position with
    | none => exact ⟨_, s, list, free, rfl, h, rfl, rfl⟩
    | some p =>
      have hsplit := h
      rw [← upTo_append_behind husable] at hsplit
      obtain ⟨s', free', hrun, hrep⟩ := eraseAfter_rep hsplit
      rw [positionOf_upTo husable] at hrun
      exact ⟨_, s', _, free', by simp only [ForwardList.apply, hrun]; rfl, hrep, rfl, rfl⟩
  | popFront =>
    cases list with
    | nil => exact ⟨_, s, [], free, by simp only [ForwardList.apply, popFront_nil h]; rfl, h, rfl, rfl⟩
    | cons e list =>
      obtain ⟨s', hrun, hrep⟩ := popFront_cons h
      exact ⟨_, s', list, _, by simp only [ForwardList.apply, hrun]; rfl, hrep, rfl, rfl⟩
  | remove value =>
    obtain ⟨s', free', hrun, hrep⟩ := remove_rep h value
    exact ⟨_, s', _, free', by simp only [ForwardList.apply, hrun]; rfl, hrep, rfl, rfl⟩
  | reverse =>
    obtain ⟨s', hrun, hrep⟩ := reverse_rep h
    exact ⟨_, s', _, free, by simp only [ForwardList.apply, hrun]; rfl, hrep, rfl, rfl⟩
  | clear =>
    obtain ⟨s', free', hrun, hrep⟩ := clear_rep h
    exact ⟨_, s', [], free', by simp only [ForwardList.apply, hrun]; rfl, hrep, rfl, rfl⟩

theorem entriesFrom_eq {fuel : ℕ} {start : Option (Fin cap.size)}
    (hchain : Chain s.nextOf start (nodesOf list) none)
    (hstored : ∀ e ∈ list, (s.node e.1).value = some e.2) (hf : list.length ≤ fuel) :
    s.entriesFrom fuel start = some list := by
  induction list generalizing start fuel with
  | nil =>
    have hs : start = none := hchain
    simp [hs, entriesFrom]
  | cons e list ih =>
    obtain ⟨fuel, rfl⟩ : ∃ n, fuel = n + 1 := ⟨fuel - 1, by rw [List.length_cons] at hf; omega⟩
    rw [List.length_cons] at hf
    obtain ⟨hs, hchain⟩ := hchain
    have hrest : s.entriesFrom fuel (s.node e.1).next = some list :=
      ih hchain (fun e' he' => hstored e' (List.mem_cons_of_mem e he')) (by omega)
    simp [hs, entriesFrom, hstored e List.mem_cons_self, hrest]

theorem freeFrom_eq {fuel : ℕ} {start : Option (Fin cap.size)}
    (hchain : Chain s.nextOf start free none) (hf : free.length ≤ fuel) :
    s.freeFrom fuel start = some free := by
  induction free generalizing start fuel with
  | nil =>
    have hs : start = none := hchain
    simp [hs, freeFrom]
  | cons i free ih =>
    obtain ⟨fuel, rfl⟩ : ∃ n, fuel = n + 1 := ⟨fuel - 1, by rw [List.length_cons] at hf; omega⟩
    rw [List.length_cons] at hf
    obtain ⟨hs, hchain⟩ := hchain
    have hrest : s.freeFrom fuel (s.node i).next = some free := ih hchain (by omega)
    simp [hs, freeFrom, hrest]

theorem Rep.entries_eq (h : Rep s list free) : s.entries = some list := by
  have hlen := h.length_add
  have hchain := h.chain
  rw [← h.head_eq] at hchain
  exact entriesFrom_eq hchain h.stored (by omega)

theorem Rep.freeNodes_eq (h : Rep s list free) : s.freeNodes = some free := by
  have hlen := h.length_add
  exact freeFrom_eq h.freeChain (by omega)

theorem Reachable.rep [BEq T] (h : Reachable s) : ∃ list free, Rep s list free := by
  induction h with
  | init => exact ⟨[], _, rep_init⟩
  | step _ hlist husable hstep ih =>
    obtain ⟨list, free, hrep⟩ := ih
    obtain rfl := Option.some.inj (hrep.entries_eq.symm.trans hlist)
    obtain ⟨reply, s', list', free', hrun, hrep', -⟩ := hrep.apply _ husable
    obtain ⟨rfl, rfl⟩ := Prod.mk.inj (Option.some.inj (hrun.symm.trans hstep))
    exact ⟨list', free', hrep'⟩

/-- In every reachable state the traversal lists the live nodes, which the free list completes
to the pool, and every call does to the list what it does to a list of capacity `N`. -/
theorem reachable_refines_list [BEq T] (h : Reachable s) : ∃ list free, s.entries =
    some list ∧ s.freeNodes = some free ∧ s.head = s.before ∧ (nodesOf list ++ free).Perm
    (List.finRange cap.size) ∧ s.size = list.length ∧ ∀ op, op.Usable list → ∃ reply s' list',
    s.apply op = some (reply, s') ∧ s'.entries = some list' ∧ op.Changes list reply list' := by
  obtain ⟨list, free, hrep⟩ := h.rep
  refine ⟨list, free, hrep.entries_eq, hrep.freeNodes_eq, hrep.head_eq, hrep.partition,
    hrep.size_eq, fun op husable => ?_⟩
  obtain ⟨reply, s', list', free', hrun, hrep', hchanges⟩ := hrep.apply op husable
  exact ⟨reply, s', list', hrun, hrep'.entries_eq, hchanges⟩

def twoNodes : Capacity := ⟨2, Nat.two_pos, Nat.le_of_ble_eq_true rfl⟩

theorem reachable_pushFront : Reachable (init.pushFront 7 : Status × ForwardList twoNodes ℕ).2 :=
  @Reachable.step _ _ _ _ _ [] (.pushFront 7) _ Reachable.init rep_init.entries_eq trivial rfl

theorem reachable_refines_list_pushFront :
    ∃ list free, (init.pushFront 7 : Status × ForwardList twoNodes ℕ).2.entries =
    some list ∧ (init.pushFront 7 : Status × ForwardList twoNodes ℕ).2.freeNodes =
    some free ∧ (init.pushFront 7 : Status × ForwardList twoNodes ℕ).2.head =
    (init.pushFront 7 : Status × ForwardList twoNodes ℕ).2.before ∧ (nodesOf list ++ free).Perm
    (List.finRange twoNodes.size) ∧ (init.pushFront 7 : Status × ForwardList twoNodes ℕ).2.size =
    list.length ∧ ∀ op : Op twoNodes ℕ, op.Usable list →
    ∃ reply s' list', (init.pushFront 7 : Status × ForwardList twoNodes ℕ).2.apply op =
    some (reply, s') ∧ s'.entries = some list' ∧ op.Changes list reply list' :=
  reachable_refines_list reachable_pushFront

end Castle.Container.ForwardList
