import Castle.Io.Rpmsg.Lifetime

/-!
# What the operations do to the lifetimes

Every operation keeps what holds of the table, and none of them touches the callbacks of a slot
while one of them is on the call stack.
-/

namespace Castle.Io.Rpmsg

open Generations

namespace Device

variable {n : ℕ} {γ : Type} {d d' : Device n γ}

structure Sound (d : Device n γ) : Prop where
  consistent : Consistent d
  balanced : Balanced d

/-- A slot with a callback on the call stack keeps its callbacks and its backend endpoint. -/
structure Undisturbed (d d' : Device n γ) : Prop where
  dispatching : ∀ i, (d'.endpoints.get i).dispatching = (d.endpoints.get i).dispatching
  busy : ∀ i, 0 < (d.endpoints.get i).dispatching →
    (∀ kind, (d'.endpoints.get i).callback kind = (d.endpoints.get i).callback kind) ∧
      (d'.endpoints.get i).backendHandle = (d.endpoints.get i).backendHandle

theorem Undisturbed.refl (d : Device n γ) :
    Undisturbed d d := ⟨fun _ => rfl, fun _ _ => ⟨fun _ => rfl, rfl⟩⟩

theorem Undisturbed.trans {d₁ d₂ d₃ : Device n γ} (h : Undisturbed d₁ d₂) (h' : Undisturbed d₂ d₃) :
    Undisturbed d₁ d₃ where
  dispatching i := (h'.dispatching i).trans (h.dispatching i)
  busy i hi := by
    obtain ⟨hcallback, hhandle⟩ := h.busy i hi
    obtain ⟨hcallback', hhandle'⟩ := h'.busy i ((h.dispatching i).symm ▸ hi)
    exact ⟨fun kind => (hcallback' kind).trans (hcallback kind), hhandle'.trans hhandle⟩

variable {i : Fin n}

theorem undisturbed_of_idle (hidle : (d.endpoints.get i).dispatching = 0)
    (hidle' : (d'.endpoints.get i).dispatching = 0)
    (hothers : ∀ j, j ≠ i → d'.endpoints.get j = d.endpoints.get j) : Undisturbed d d' := by
  constructor
  · intro j
    by_cases hj : j = i
    · rw [hj, hidle, hidle']
    · rw [hothers j hj]
  · intro j hpos
    have hj : j ≠ i := by
      rintro rfl
      omega
    rw [hothers j hj]
    exact ⟨fun _ => rfl, rfl⟩

theorem destroyEndpoint_endpoints (d : Device n γ) (handle : Option ℕ) :
    (d.destroyEndpoint handle).endpoints = d.endpoints := by
  cases handle <;> rfl

theorem get_endSlot (d : Device n γ) (i j : Fin n) : (d.endSlot i).endpoints.get j =
    if j = i then (d.endpoints.get j).release else d.endpoints.get j := by
  rw [endSlot, get_modifySlot, destroyEndpoint_endpoints, get_modifySlot]
  by_cases hj : j = i
  · simp only [if_pos hj]
    rfl
  · simp only [if_neg hj]

theorem endSlot_eq {c : ℕ} (h : (d.endpoints.get i).backendHandle = some c) :
    d.endSlot i = { d with
      endpoints := (d.endSlot i).endpoints
      destroyed := c :: d.destroyed } := by
  rw [endSlot, h]
  rfl

/-- Slots that end, and nothing else -/
structure Shrunk (d d' : Device n γ) : Prop where
  sound : Sound d'
  undisturbed : Undisturbed d d'
  active : ∀ i, (d'.endpoints.get i).active = true → d'.endpoints.get i = d.endpoints.get i
  activations : d'.activations = d.activations
  created : d'.created = d.created

theorem Shrunk.refl (hd : Sound d) : Shrunk d d := ⟨hd, .refl d, fun _ _ => rfl, rfl, rfl⟩

theorem Shrunk.trans {d₁ d₂ d₃ : Device n γ} (h : Shrunk d₁ d₂) (h' : Shrunk d₂ d₃) : Shrunk d₁ d₃ where
  sound := h'.sound
  undisturbed := h.undisturbed.trans h'.undisturbed
  active i hi := by
    have hsame := h'.active i hi
    rw [hsame] at hi ⊢
    exact h.active i hi
  activations := h'.activations.trans h.activations
  created := h'.created.trans h.created

theorem endSlot_inactive (d : Device n γ) (i : Fin n) :
    ((d.endSlot i).endpoints.get i).active = false := by
  rw [get_endSlot, if_pos rfl, EndpointSlot.release_active]

theorem Sound.endSlot (hd : Sound d) (hactive : (d.endpoints.get i).active = true) :
    Shrunk d (d.endSlot i) := by
  have hoccupied := EndpointSlot.occupied_of_active hactive
  obtain ⟨a, ha, _, _, hhandle⟩ := hd.consistent.handle_of_occupied hoccupied
  have heq := endSlot_eq hhandle
  have hinactive : ∀ j, ((d.endSlot i).endpoints.get j).active = true →
      j ≠ i ∧ (d.endpoints.get j).active = true := by
    intro j hj
    rw [get_endSlot] at hj
    by_cases hji : j = i
    · rw [if_pos hji, EndpointSlot.release_active] at hj
      exact absurd hj Bool.false_ne_true
    · rw [if_neg hji] at hj
      exact ⟨hji, hj⟩
  have hlive : a.serial ∉ d.destroyed :=
    (hd.balanced.live _ (hd.consistent.created a ha)).mpr ⟨i, hactive, hhandle⟩
  have hactivations : (d.endSlot i).activations = d.activations := by rw [heq]
  have hcreated : (d.endSlot i).created = d.created := by rw [heq]
  refine ⟨⟨?_, ?_⟩, ?_, fun j hj => ?_, hactivations, hcreated⟩
  · refine hd.consistent.advance hactivations hcreated.ge (fun j => ?_) fun j hj => ?_
    · rw [get_endSlot]
      by_cases hj : j = i
      · rw [if_pos hj, hj]
        exact (EndpointSlot.release_spec hactive).imp And.left And.left
      · rw [if_neg hj]
        exact Or.inl (EndpointSlot.Kept.refl _)
    · rw [heq]
      exact hd.consistent.initialized j (hinactive j hj).2
  · constructor
    · rw [heq]
      exact List.nodup_cons.mpr ⟨hlive, hd.balanced.once⟩
    · rw [heq]
      intro c hc
      rcases List.mem_cons.mp hc with rfl | hc
      · exact hd.consistent.created a ha
      · exact hd.balanced.known c hc
    · intro c hc
      have hdestroyed : (d.endSlot i).destroyed = a.serial :: d.destroyed := by rw [heq]
      have hc' : c < d.created := by
        rw [heq] at hc
        exact hc
      rw [hdestroyed, List.mem_cons, not_or, hd.balanced.live c hc']
      constructor
      · rintro ⟨hne, j, hj, hcj⟩
        have hji : j ≠ i := by
          rintro rfl
          rw [hhandle] at hcj
          exact hne (Option.some.inj hcj).symm
        refine ⟨j, ?_⟩
        rw [get_endSlot, if_neg hji]
        exact ⟨hj, hcj⟩
      · rintro ⟨j, hj, hcj⟩
        obtain ⟨hji, hj⟩ := hinactive j hj
        rw [get_endSlot, if_neg hji] at hcj
        refine ⟨?_, j, hj, hcj⟩
        rintro rfl
        exact hji (hd.consistent.handle_inj (EndpointSlot.occupied_of_active hj) hoccupied hcj hhandle)
  · rcases EndpointSlot.release_spec hactive with ⟨_, _, hrelease⟩ | ⟨hfreed, hidle⟩
    · constructor
      · intro j
        rw [get_endSlot]
        by_cases hj : j = i
        · rw [if_pos hj, hj, hrelease]
        · rw [if_neg hj]
      · intro j _
        rw [get_endSlot]
        by_cases hj : j = i
        · rw [if_pos hj, hj, hrelease]
          exact ⟨fun kind => by cases kind <;> rfl, rfl⟩
        · rw [if_neg hj]
          exact ⟨fun _ => rfl, rfl⟩
    · refine undisturbed_of_idle hidle ?_ fun j hj => ?_
      · rw [get_endSlot, if_pos rfl]
        exact hfreed.idle
      · rw [get_endSlot, if_neg hj]
  · rw [get_endSlot, if_neg (hinactive j hj).1]

theorem Sound.endSlots (hd : Sound d) (slots : List (Fin n)) :
    Shrunk d (slots.foldl (fun d i => if (d.endpoints.get i).active then d.endSlot i else d) d) ∧
      ∀ i ∈ slots, ((slots.foldl (fun d i => if (d.endpoints.get i).active then d.endSlot i else d)
        d).endpoints.get i).active = false := by
  induction slots generalizing d with
  | nil => exact ⟨.refl hd, fun _ hi => absurd hi List.not_mem_nil⟩
  | cons i slots ih =>
    rw [List.foldl_cons]
    have hfirst : Shrunk d (if (d.endpoints.get i).active then d.endSlot i else d) ∧
        ((if (d.endpoints.get i).active then d.endSlot i else d).endpoints.get i).active = false := by
      by_cases hactive : (d.endpoints.get i).active = true
      · rw [if_pos hactive]
        exact ⟨hd.endSlot hactive, endSlot_inactive d i⟩
      · rw [if_neg hactive]
        exact ⟨.refl hd, Bool.not_eq_true _ ▸ hactive⟩
    obtain ⟨hrest, hinactive⟩ := ih hfirst.1.sound
    refine ⟨hfirst.1.trans hrest, fun j hj => ?_⟩
    rcases List.mem_cons.mp hj with rfl | hj
    · rw [← Bool.not_eq_true]
      intro hactive
      rw [hrest.active j hactive, hfirst.2] at hactive
      exact Bool.false_ne_true hactive
    · exact hinactive j hj

theorem Sound.shutdown (hd : Sound d) (answer : Status) :
    Shrunk d (d.shutdown answer).1 ∧ (d.shutdown answer).1.initialized = false ∧
      ∀ i, ((d.shutdown answer).1.endpoints.get i).active = false := by
  rw [Device.shutdown]
  by_cases hinitialized : d.initialized = true
  · rw [if_neg (by simp [hinitialized])]
    obtain ⟨hended, hinactive⟩ := hd.endSlots (List.finRange n)
    generalize (List.finRange n).foldl
      (fun d i => if (d.endpoints.get i).active then d.endSlot i else d) d = d' at hended hinactive
    have hinactive' : ∀ i, (d'.endpoints.get i).active = false :=
      fun i => hinactive i (List.mem_finRange i)
    refine ⟨⟨⟨?_, ?_⟩, ⟨hended.undisturbed.dispatching, hended.undisturbed.busy⟩, hended.active,
      hended.activations, hended.created⟩, rfl, hinactive'⟩
    · refine hended.sound.consistent.advance rfl le_rfl (fun i => Or.inl (EndpointSlot.Kept.refl _))
        fun i hi => ?_
      exact absurd ((hinactive' i).symm.trans hi) Bool.false_ne_true
    · exact hended.sound.balanced.congr rfl rfl fun i => ⟨rfl, fun _ => rfl⟩
  · rw [Bool.not_eq_true] at hinitialized
    rw [if_pos (by simp [hinitialized])]
    refine ⟨.refl hd, hinitialized, fun i => ?_⟩
    rw [← Bool.not_eq_true]
    intro hi
    exact absurd (hinitialized.symm.trans (hd.consistent.initialized i hi)) Bool.false_ne_true

theorem Balanced.all_destroyed (hb : Balanced d) (h : ∀ i, (d.endpoints.get i).active = false) {c : ℕ}
    (hc : c < d.created) : c ∈ d.destroyed := by
  by_contra hlive
  obtain ⟨i, hactive, _⟩ := (hb.live c hc).mp hlive
  exact absurd ((h i).symm.trans hactive) Bool.false_ne_true

theorem Sound.initializeDevice (hd : Sound d) (options : Options) (config : Option DeviceConfig)
    (backendReady : Bool) (answer : Status) :
    Sound (d.initializeDevice options config backendReady answer).1 ∧
      (d.initializeDevice options config backendReady answer).1.endpoints = d.endpoints ∧
      (d.initializeDevice options config backendReady answer).1.activations = d.activations := by
  simp only [Device.initializeDevice]
  split_ifs
  · exact ⟨hd, rfl, rfl⟩
  · exact ⟨hd, rfl, rfl⟩
  · exact ⟨hd, rfl, rfl⟩
  · refine ⟨⟨?_, hd.balanced.congr rfl rfl fun i => ⟨rfl, fun _ => rfl⟩⟩, rfl, rfl⟩
    exact hd.consistent.advance rfl le_rfl (fun i => Or.inl (EndpointSlot.Kept.refl _)) fun _ _ => rfl
  · exact ⟨hd, rfl, rfl⟩

/-- What `attach_endpoint` leaves -/
inductive Attempt (d : Device n γ) (endpoint : Endpoint) : Device n γ → Endpoint → Prop
  | refused : Attempt d endpoint d endpoint
  /-- The backend created nothing, or what it created was destroyed at once. -/
  | failed (i : Fin n) {d' : Device n γ} (hfree : (d.endpoints.get i).occupied = false)
    (hslots : ∀ j, j ≠ i → d'.endpoints.get j = d.endpoints.get j)
    (hfreed : (d.endpoints.get i).dispatching = 0 → (d.endpoints.get i).Freed (d'.endpoints.get i))
    (hactivations : d'.activations = d.activations) (hinitialized : d'.initialized = d.initialized)
    (hcount : d'.created = d.created ∧ d'.destroyed = d.destroyed ∨
      d'.created = d.created + 1 ∧ d'.destroyed = d.created :: d.destroyed) :
    Attempt d endpoint d' endpoint
  | attached (i : Fin n) {d' : Device n γ} (hfree : (d.endpoints.get i).occupied = false)
    (hendpoint : endpoint.attached = false) (hready : d.initialized = true)
    (hslots : ∀ j, j ≠ i → d'.endpoints.get j = d.endpoints.get j)
    (localAddress source : Address) (onReceive onUnbind : Option γ)
    (hslot : d'.endpoints.get i = { (d.endpoints.get i).prepare localAddress onReceive onUnbind with
      backendHandle := some d.created, source := source })
    (hactivations : d'.activations = ⟨i, (d.endpoints.get i).steps, d.created⟩ :: d.activations)
    (hinitialized : d'.initialized = d.initialized) (hcreated : d'.created = d.created + 1)
    (hdestroyed : d'.destroyed = d.destroyed) :
    Attempt d endpoint d' ⟨true, i, (d.endpoints.get i).generation, some d.created⟩

theorem findSlot_ok {options : Options} {endpoint : Endpoint} {backendReady : Bool}
    {serviceName : Option (List UInt8)} {localAddress remoteAddress : Address}
    {onReceive : Option γ}
    (h : d.findSlot options endpoint backendReady serviceName localAddress remoteAddress
      onReceive = .ok i) :
    d.initialized = true ∧ endpoint.attached = false ∧ (d.endpoints.get i).occupied = false := by
  rw [findSlot] at h
  split at h
  · cases h
  next hready =>
  split at h
  · cases h
  next hattached =>
  split at h
  · cases h
  split at h
  · cases h
  split at h
  · cases h
  split at h
  · cases h
  split at h
  · cases h
  next j hfirst =>
  obtain rfl := Except.ok.inj h
  have hfree := Table.firstIdx_some hfirst
  rw [Bool.and_eq_true, Bool.not_eq_true', Bool.not_eq_true'] at hfree
  refine ⟨?_, by simpa using hattached, ?_⟩
  · rw [isInitialized] at hready
    simp only [Bool.not_eq_true', Bool.not_eq_false, Bool.and_eq_true] at hready
    exact hready.1
  · rw [EndpointSlot.occupied, hfree.1, hfree.2]
    rfl

theorem attempt (d : Device n γ) (options : Options) (endpoint : Endpoint) (backendReady : Bool)
    (serviceName : Option (List UInt8)) (localAddress remoteAddress : Address)
    (onReceive onUnbind : Option γ) (creation : Creation) :
    Attempt d endpoint
      (d.attachEndpoint options endpoint backendReady serviceName localAddress remoteAddress onReceive
        onUnbind creation).1
      (d.attachEndpoint options endpoint backendReady serviceName localAddress remoteAddress onReceive
        onUnbind creation).2.1 := by
  rw [attachEndpoint]
  cases hfound : d.findSlot options endpoint backendReady serviceName localAddress remoteAddress
      onReceive with
  | error status => exact .refused
  | ok i =>
    obtain ⟨hready, hendpoint, hfree⟩ := findSlot_ok hfound
    -- the slot after a failure
    have hcleared : ∀ d₁ : Device n γ, d₁.endpoints = d.endpoints →
        (∀ j, j ≠ i → (((d₁.modifySlot i fun slot =>
          slot.prepare localAddress onReceive onUnbind).modifySlot i EndpointSlot.clear).endpoints.get j) =
            d.endpoints.get j) ∧
        ((d.endpoints.get i).dispatching = 0 → (d.endpoints.get i).Freed (((d₁.modifySlot i fun slot =>
          slot.prepare localAddress onReceive onUnbind).modifySlot i EndpointSlot.clear).endpoints.get i)) := by
      intro d₁ hd₁
      refine ⟨fun j hj => ?_, fun hidle => ?_⟩
      · rw [get_modifySlot, if_neg hj, get_modifySlot, if_neg hj, hd₁]
      · rw [get_modifySlot, if_pos rfl, get_modifySlot, if_pos rfl, hd₁]
        exact ⟨rfl, rfl, rfl, rfl, hidle⟩
    obtain ⟨hslots, hfreed⟩ := hcleared d rfl
    rcases creation with status | ⟨made, actualSource⟩
    · exact .failed i hfree hslots hfreed rfl rfl (Or.inl ⟨rfl, rfl⟩)
    · cases made with
      | false => exact .failed i hfree hslots hfreed rfl rfl (Or.inl ⟨rfl, rfl⟩)
      | true =>
        dsimp only
        split_ifs
        · exact .failed i hfree hslots hfreed rfl rfl (Or.inr ⟨rfl, rfl⟩)
        · have hother : ∀ j, j ≠ i → ((d.modifySlot i fun slot =>
              slot.prepare localAddress onReceive onUnbind).endpoints.modify i fun slot =>
                { slot with backendHandle := some d.created, source := actualSource }).get j =
              d.endpoints.get j := by
            intro j hj
            rw [Table.get_modify, if_neg hj, get_modifySlot, if_neg hj]
          have hself : ((d.modifySlot i fun slot =>
              slot.prepare localAddress onReceive onUnbind).endpoints.modify i fun slot =>
                { slot with backendHandle := some d.created, source := actualSource }).get i =
              { (d.endpoints.get i).prepare localAddress onReceive onUnbind with
                backendHandle := some d.created, source := actualSource } := by
            rw [Table.get_modify, if_pos rfl, get_modifySlot, if_pos rfl]
          exact .attached i hfree hendpoint hready hother localAddress actualSource onReceive onUnbind hself
            rfl rfl rfl rfl

theorem Balanced.failed (hb : Balanced d) (hcreated : d'.created = d.created + 1)
    (hdestroyed : d'.destroyed = d.created :: d.destroyed)
    (hslots : ∀ i, (d'.endpoints.get i).active = (d.endpoints.get i).active ∧
      ((d.endpoints.get i).active = true →
        (d'.endpoints.get i).backendHandle = (d.endpoints.get i).backendHandle))
    (hold : ∀ i, (d.endpoints.get i).active = true → (d.endpoints.get i).backendHandle ≠ some d.created) :
    Balanced d' where
  once := by
    rw [hdestroyed]
    exact List.nodup_cons.mpr ⟨fun h => Nat.lt_irrefl _ (hb.known _ h), hb.once⟩
  known := by
    rw [hdestroyed, hcreated]
    intro c hc
    rcases List.mem_cons.mp hc with rfl | hc
    · exact Nat.lt_succ_self _
    · exact (hb.known c hc).trans (Nat.lt_succ_self _)
  live c hc := by
    rw [hdestroyed, List.mem_cons, not_or]
    rw [hcreated] at hc
    constructor
    · rintro ⟨hne, hc'⟩
      obtain ⟨i, hactive, hhandle⟩ := (hb.live c (by omega)).mp hc'
      exact ⟨i, (hslots i).1.trans hactive, ((hslots i).2 hactive).trans hhandle⟩
    · rintro ⟨i, hactive, hhandle⟩
      rw [(hslots i).1] at hactive
      rw [(hslots i).2 hactive] at hhandle
      have hne : c ≠ d.created := by
        rintro rfl
        exact hold i hactive hhandle
      exact ⟨hne, (hb.live c (by omega)).mpr ⟨i, hactive, hhandle⟩⟩

theorem Sound.old (hd : Sound d) (hactive : (d.endpoints.get i).active = true) :
    (d.endpoints.get i).backendHandle ≠ some d.created := by
  obtain ⟨a, ha, _, _, hhandle⟩ :=
    hd.consistent.handle_of_occupied (EndpointSlot.occupied_of_active hactive)
  intro h
  rw [h] at hhandle
  exact (hd.consistent.created a ha).ne (Option.some.inj hhandle).symm

theorem Sound.failed (hd : Sound d) (hfree : (d.endpoints.get i).occupied = false)
    (hslots : ∀ j, j ≠ i → d'.endpoints.get j = d.endpoints.get j)
    (hfreed : (d.endpoints.get i).Freed (d'.endpoints.get i))
    (hactivations : d'.activations = d.activations) (hinitialized : d'.initialized = d.initialized)
    (hcount : d'.created = d.created ∧ d'.destroyed = d.destroyed ∨
      d'.created = d.created + 1 ∧ d'.destroyed = d.created :: d.destroyed) : Sound d' := by
  have hinactive : (d.endpoints.get i).active = false := by
    rw [EndpointSlot.occupied, Bool.or_eq_false_iff] at hfree
    exact hfree.1
  have hslots' : ∀ j, (d'.endpoints.get j).active = (d.endpoints.get j).active ∧
      ((d.endpoints.get j).active = true →
        (d'.endpoints.get j).backendHandle = (d.endpoints.get j).backendHandle) := by
    intro j
    by_cases hj : j = i
    · rw [hj, hinactive, hfreed.active]
      exact ⟨rfl, fun h => absurd h Bool.false_ne_true⟩
    · rw [hslots j hj]
      exact ⟨rfl, fun _ => rfl⟩
  constructor
  · have hcreated : d.created ≤ d'.created := by
      rcases hcount with ⟨h, _⟩ | ⟨h, _⟩ <;> omega
    refine hd.consistent.advance hactivations hcreated (fun j => ?_) fun j hj => ?_
    · by_cases hj : j = i
      · rw [hj]
        exact Or.inr hfreed
      · rw [hslots j hj]
        exact Or.inl (EndpointSlot.Kept.refl _)
    · rw [hinitialized]
      exact hd.consistent.initialized j ((hslots' j).1 ▸ hj)
  · rcases hcount with ⟨hcreated, hdestroyed⟩ | ⟨hcreated, hdestroyed⟩
    · exact hd.balanced.congr hcreated hdestroyed hslots'
    · exact hd.balanced.failed hcreated hdestroyed hslots' fun j => hd.old

theorem Sound.attached (hd : Sound d) (hfree : (d.endpoints.get i).occupied = false)
    (hready : d.initialized = true) (hslots : ∀ j, j ≠ i → d'.endpoints.get j = d.endpoints.get j)
    {localAddress source : Address} {onReceive onUnbind : Option γ}
    (hslot : d'.endpoints.get i = { (d.endpoints.get i).prepare localAddress onReceive onUnbind with
      backendHandle := some d.created, source := source })
    (hactivations : d'.activations = ⟨i, (d.endpoints.get i).steps, d.created⟩ :: d.activations)
    (hinitialized : d'.initialized = d.initialized) (hcreated : d'.created = d.created + 1)
    (hdestroyed : d'.destroyed = d.destroyed) : Sound d' := by
  have hactive : (d'.endpoints.get i).active = true := congrArg EndpointSlot.active hslot
  have hsteps : (d'.endpoints.get i).steps = (d.endpoints.get i).steps :=
    (congrArg EndpointSlot.steps hslot).trans rfl
  have hhandle : (d'.endpoints.get i).backendHandle = some d.created :=
    congrArg EndpointSlot.backendHandle hslot
  constructor
  · constructor
    · rw [hactivations]
      refine hd.consistent.ledger.issue hfree le_rfl hsteps (EndpointSlot.occupied_of_active hactive) ?_
      intro j hj
      rw [hslots j hj]
      exact ⟨rfl, rfl⟩
    · intro j
      by_cases hj : j = i
      · rw [hj, hsteps, ← hd.consistent.generations i]
        exact (congrArg EndpointSlot.generation hslot).trans rfl
      · rw [hslots j hj]
        exact hd.consistent.generations j
    · rw [hactivations]
      exact List.pairwise_cons.mpr ⟨hd.consistent.created, hd.consistent.serials⟩
    · rw [hactivations, hcreated]
      intro a ha
      rcases List.mem_cons.mp ha with rfl | ha
      · exact Nat.lt_succ_self _
      · exact (hd.consistent.created a ha).trans (Nat.lt_succ_self _)
    · rw [hactivations]
      intro a ha hoccupied hnumber
      rcases List.mem_cons.mp ha with rfl | ha
      · exact hhandle
      · by_cases hj : a.index = i
        · have hlt := hd.consistent.ledger.lt a ha (hj ▸ hfree)
          rw [hj, hsteps] at hnumber
          rw [hj] at hlt
          omega
        · rw [hslots _ hj] at hoccupied hnumber ⊢
          exact hd.consistent.handle a ha hoccupied hnumber
    · intro _ _
      rw [hinitialized, hready]
    · intro j
      by_cases hj : j = i
      · have hidle := (hd.consistent.regular i).idle hfree
        rw [EndpointSlot.occupied, Bool.or_eq_false_iff] at hfree
        have hzombie : (d'.endpoints.get i).zombie = false :=
          (congrArg EndpointSlot.zombie hslot).trans hfree.2
        rw [hj]
        refine ⟨fun h => absurd (hzombie.symm.trans h) Bool.false_ne_true, fun _ => ?_⟩
        exact EndpointSlot.occupied_of_active hactive
      · rw [hslots j hj]
        exact hd.consistent.regular j
  · have hb := hd.balanced
    have hnew : d.created ∉ d.destroyed := fun h => Nat.lt_irrefl _ (hb.known _ h)
    constructor
    · rw [hdestroyed]
      exact hb.once
    · rw [hdestroyed, hcreated]
      exact fun c hc => (hb.known c hc).trans (Nat.lt_succ_self _)
    · intro c hc
      rw [hdestroyed]
      rw [hcreated] at hc
      have hinactive : (d.endpoints.get i).active = false := by
        rw [EndpointSlot.occupied, Bool.or_eq_false_iff] at hfree
        exact hfree.1
      by_cases hlast : c = d.created
      · subst hlast
        exact ⟨fun _ => ⟨i, hactive, hhandle⟩, fun _ => hnew⟩
      · rw [hb.live c (by omega)]
        constructor
        · rintro ⟨j, hj, hcj⟩
          have hji : j ≠ i := by
            rintro rfl
            exact absurd (hinactive.symm.trans hj) Bool.false_ne_true
          refine ⟨j, ?_⟩
          rw [hslots j hji]
          exact ⟨hj, hcj⟩
        · rintro ⟨j, hj, hcj⟩
          have hji : j ≠ i := by
            rintro rfl
            rw [hhandle] at hcj
            exact hlast (Option.some.inj hcj).symm
          rw [hslots j hji] at hj hcj
          exact ⟨j, hj, hcj⟩

theorem Attempt.sound {endpoint endpoint' : Endpoint}
    (h : Attempt d endpoint d' endpoint') (hd : Sound d) : Sound d' ∧ Undisturbed d d' := by
  cases h with
  | refused => exact ⟨hd, .refl d⟩
  | failed i hfree hslots hfreed hactivations hinitialized hcount =>
    have hidle := (hd.consistent.regular i).idle hfree
    have hfreed := hfreed hidle
    exact ⟨hd.failed hfree hslots hfreed hactivations hinitialized hcount,
      undisturbed_of_idle hidle hfreed.idle hslots⟩
  | attached i hfree _ hready hslots localAddress source onReceive onUnbind hslot hactivations
      hinitialized hcreated hdestroyed =>
    have hidle := (hd.consistent.regular i).idle hfree
    have hdispatching : (d'.endpoints.get i).dispatching = 0 :=
      (congrArg EndpointSlot.dispatching hslot).trans hidle
    exact ⟨hd.attached hfree hready hslots hslot hactivations hinitialized hcreated hdestroyed,
      undisturbed_of_idle hidle hdispatching hslots⟩

/-- The trampolines start a callback of an active slot, or none. -/
inductive Trampoline (d : Device n γ) : Device n γ × List (Running n γ) → Prop
  | none : Trampoline d (d, [])
  | started (i : Fin n) (kind : CallbackKind) (hactive : (d.endpoints.get i).active = true)
    (hsome : ((d.endpoints.get i).callback kind).callable.isSome = true) :
    Trampoline d (d.modifySlot i fun slot => { slot with dispatching := slot.dispatching + 1 },
      [⟨i, kind, (d.endpoints.get i).callback kind, (d.endpoints.get i).backendHandle⟩])

theorem trampoline_receive (d : Device n γ) (options : Options) (i : Fin n) (message : MessageView) :
    Trampoline d ((d.receiveTrampoline options i message).1,
      (d.receiveTrampoline options i message).2.2) := by
  simp only [receiveTrampoline]
  by_cases hactive : (!(d.endpoints.get i).active || !(d.endpoints.get i).owned) = true
  · rw [if_pos hactive]
    exact .none
  rw [if_neg hactive]
  by_cases hnone : (d.endpoints.get i).onReceive.callable.isNone = true
  · rw [if_pos hnone]
    exact .none
  rw [if_neg hnone]
  split_ifs
  · exact .none
  · refine .started i .receive ?_ ?_
    · simp only [Bool.or_eq_true, Bool.not_eq_true', not_or, Bool.not_eq_false] at hactive
      exact hactive.1
    · exact Option.isSome_iff_ne_none.mpr fun h => hnone (Option.isNone_iff_eq_none.mpr h)

theorem trampoline_unbind (d : Device n γ) (i : Fin n) : Trampoline d (d.unbindTrampoline i) := by
  simp only [unbindTrampoline]
  by_cases hactive : (d.endpoints.get i).active = true
  · rw [if_neg (by simp [hactive])]
    by_cases hsome : (d.endpoints.get i).onUnbind.callable.isSome = true
    · rw [if_pos hsome]
      exact .started i .unbind hactive hsome
    · rw [if_neg hsome]
      exact .none
  · rw [if_pos (by simp [hactive])]
    exact .none

theorem Sound.modify (hd : Sound d) {f : EndpointSlot γ → EndpointSlot γ}
    (h : (d.endpoints.get i).Kept (f (d.endpoints.get i)) ∨
      (d.endpoints.get i).Freed (f (d.endpoints.get i)))
    (hactive : (f (d.endpoints.get i)).active = (d.endpoints.get i).active)
    (hhandle : (d.endpoints.get i).active = true →
      (f (d.endpoints.get i)).backendHandle = (d.endpoints.get i).backendHandle) :
    Sound (d.modifySlot i f) where
  consistent := by
    refine hd.consistent.advance rfl le_rfl (fun j => ?_) fun j hj => ?_
    · rw [get_modifySlot]
      by_cases hj : j = i
      · rw [if_pos hj, hj]
        exact h
      · rw [if_neg hj]
        exact Or.inl (EndpointSlot.Kept.refl _)
    · rw [get_modifySlot] at hj
      by_cases hji : j = i
      · rw [if_pos hji, hji, hactive] at hj
        exact hd.consistent.initialized i hj
      · rw [if_neg hji] at hj
        exact hd.consistent.initialized j hj
  balanced := by
    refine hd.balanced.congr rfl rfl fun j => ?_
    rw [get_modifySlot]
    by_cases hj : j = i
    · rw [if_pos hj, hj]
      exact ⟨hactive, hhandle⟩
    · rw [if_neg hj]
      exact ⟨rfl, fun _ => rfl⟩

theorem Sound.begin (hd : Sound d) (hactive : (d.endpoints.get i).active = true) :
    Sound (d.modifySlot i fun slot => { slot with dispatching := slot.dispatching + 1 }) :=
  hd.modify (Or.inl (EndpointSlot.kept_begin hactive)) rfl fun _ => rfl

theorem Sound.endDispatch (hd : Sound d) (hpos : 0 < (d.endpoints.get i).dispatching) :
    Sound (d.modifySlot i EndpointSlot.endDispatch) := by
  rcases EndpointSlot.endDispatch_spec (hd.consistent.regular i) hpos with ⟨hkept, heq⟩ |
    ⟨hfreed, hinactive, _⟩
  · refine hd.modify (Or.inl hkept) ?_ fun _ => hkept.backendHandle
    rw [heq]
  · refine hd.modify (Or.inr hfreed) (hfreed.active.trans hinactive.symm) fun hactive => ?_
    exact absurd (hinactive.symm.trans hactive) Bool.false_ne_true

end Device
end Castle.Io.Rpmsg
