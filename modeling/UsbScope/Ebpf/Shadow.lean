import UsbScope.Ebpf.Flawless
import UsbScope.Filter.Kernel

/-! # A selecting run beside a full one

The same steps, once with a selection in the kernel and once without. While
neither run loses anything, every URB that the selecting run tracks is tracked
by the full run with the same status, under another id. The others were refused
when they were submitted, and are still the same URBs when they are given back. -/
namespace UsbScope.Ebpf
open UsbScope.Lib UsbScope.Common UsbScope.Capture UsbScope.Filter

/-! ## Selection in the kernel -/

/-- The scene with what `capture` writes to `CONFIG` and `FILTER` for a
selection. -/
def Scene.load (bus device : UInt32) (predicates : List KernelPredicate) (scene : Scene) : Scene :=
  { scene with
    config := { scene.config with
      bus := bus
      device := device
      filterCount := UInt32.ofNat predicates.length }
    filters := predicates ++
      List.replicate (maxKernelPredicates - predicates.length) ⟨0, 0, 0, 0⟩ }

/-- The scene of a capture without a selection. -/
def Scene.loadAll (scene : Scene) : Scene := scene.load 0 0xffffffff []

/-- Steps in scenes that are loaded first. -/
def loaded (load : Scene → Scene) (steps : List (Scene × Hook)) : List (Scene × Hook) :=
  steps.map fun x => (load x.1, x.2)

theorem loadAll_accepts {scene : Scene} {m : EventMeta} : ¬ scene.loadAll.Refuses m := by
  rintro (h | ⟨st, h⟩)
  · simp [selected, Scene.loadAll, Scene.load] at h
  · cases h

/-! ## The same URB -/

/-- What a URB keeps from its submission on. -/
structure Urb.Keeps (u v : Urb) : Prop where
  busnum : u.busnum = v.busnum
  devnum : u.devnum = v.devnum
  idVendor : u.idVendor = v.idVendor
  idProduct : u.idProduct = v.idProduct
  bmAttributes : u.bmAttributes = v.bmAttributes
  bEndpointAddress : u.bEndpointAddress = v.bEndpointAddress
  direction : u.transferFlags &&& 0x0200 = v.transferFlags &&& 0x0200
  transferBufferLength : u.transferBufferLength = v.transferBufferLength
  numberOfPackets : u.numberOfPackets = v.numberOfPackets

theorem Urb.Keeps.refl (u : Urb) : u.Keeps u := ⟨rfl, rfl, rfl, rfl, rfl, rfl, rfl, rfl, rfl⟩

/-- The metadata of a URB agree on what it keeps. -/
theorem Urb.Keeps.sameUrb {u v : Urb} (h : u.Keeps v) {m n m' n' : EventMeta}
    {buffer buffer' : UInt64} {sg sg' : UInt32} (hm : coreReadUrb u m = some (m', buffer, sg))
    (hn : coreReadUrb v n = some (n', buffer', sg')) : SameUrb m' n' := by
  obtain ⟨h1, h2, h3, h4, h5, h6, h7, h8, h9⟩ := h
  unfold coreReadUrb at hm hn
  dsimp only at hm hn
  split at hm
  · cases hm
  split at hn
  · cases hn
  cases hm
  cases hn
  exact ⟨by simp only [h1], by simp only [h2], h3, h4, by simp only [h6, h7], by simp only [h5], h8,
    by simp only [h5, h9]⟩

/-- The URB given back next at an address, before one is submitted there, is
`urb`. -/
inductive Returned (urb : Urb) (a : UInt64) : List (Scene × Hook) → Prop
  | never : Returned urb a []
  | resubmitted {scene : Scene} {rest : List (Scene × Hook)} (h : scene.config.enabled ≠ 0) :
      Returned urb a ((scene, .submit a) :: rest)
  | finished {scene : Scene} {hook : Hook} {call : State → Call} {rest : List (Scene × Hook)}
      (h : scene.effect hook = .finish a call) (keeps : urb.Keeps scene.urb) :
      Returned urb a ((scene, hook) :: rest)
  | later {scene : Scene} {hook : Hook} {rest : List (Scene × Hook)}
      (h : ∀ call, scene.effect hook ≠ .finish a call) (hrest : Returned urb a rest) :
      Returned urb a ((scene, hook) :: rest)

/-- URBs are given back as they were submitted. -/
def Steady : List (Scene × Hook) → Prop
  | [] => True
  | (scene, hook) :: rest => (∀ a, hook = .submit a → Returned scene.urb a rest) ∧ Steady rest

/-- A step that neither submits nor ends a URB of the address. -/
theorem Returned.tail {urb : Urb} {a : UInt64} {scene : Scene} {hook : Hook}
    {rest : List (Scene × Hook)} (h : Returned urb a ((scene, hook) :: rest))
    (hsubmit : hook = .submit a → scene.config.enabled = 0)
    (hfinish : ∀ call, scene.effect hook ≠ .finish a call) : Returned urb a rest := by
  cases h with
  | resubmitted h => exact absurd (hsubmit rfl) h
  | finished h _ => exact absurd h (hfinish _)
  | later _ hrest => exact hrest

theorem Returned.keeps {urb : Urb} {a : UInt64} {scene : Scene} {hook : Hook} {call : State → Call}
    {rest : List (Scene × Hook)} (h : Returned urb a ((scene, hook) :: rest))
    (hfinish : scene.effect hook = .finish a call) : urb.Keeps scene.urb := by
  cases h with
  | resubmitted _ => cases hfinish
  | finished _ keeps => exact keeps
  | later hno _ => exact absurd hfinish (hno _)

/-! ## Two runs -/

/-- The same call, under another id and configuration. -/
structure Call.Twin (a b : Call) : Prop where
  same : a = { b with urbId := a.urbId, config := a.config }
  memory : a.config.memory = b.config.memory
  epoch : a.config.epochOffsetNs = b.config.epochOffsetNs

section

variable (Rejects : Urb → Prop)

/-- The entries of an address in the two tables; `ids` pairs the ids of both,
`bound` is the last one of the full run. -/
inductive Entry (ids : List (Nat × Nat)) (bound : Nat) (rest : List (Scene × Hook)) (a : UInt64) :
    Option State → Option State → Prop
  | absent : Entry ids bound rest a none none
  | both {s t : State} (paired : (s.id, t.id) ∈ ids) (status : s.status = t.status) :
      Entry ids bound rest a (some s) (some t)
  | only {t : State} {urb : Urb} (rejects : Rejects urb) (returned : Returned urb a rest)
      (foreign : t.id ∉ ids.map Prod.snd) (bounded : t.id ≤ bound) :
      Entry ids bound rest a none (some t)

/-- A call of the full run, with that of the selecting run if there is one. -/
inductive Beside (ids : List (Nat × Nat)) (bound : Nat) : Option Call → Call → Prop
  | both {a b : Call} (paired : (a.urbId, b.urbId) ∈ ids) (twin : a.Twin b) :
      Beside ids bound (some a) b
  | only {b : Call} {urb : Urb} (rejects : Rejects urb) (keeps : urb.Keeps b.urb)
      (foreign : b.urbId ∉ ids.map Prod.snd) (bounded : b.urbId ≤ bound) : Beside ids bound none b

/-- The two runs so far, with the calls of both side by side. -/
structure Shadow (ids : List (Nat × Nat)) (pairs : List (Option Call × Call)) (s t : Tracker)
    (rest : List (Scene × Hook)) : Prop where
  calls : ∀ p ∈ pairs, Beside Rejects ids t.probe.sequence p.1 p.2
  table : ∀ a : UInt64,
    Entry Rejects ids t.probe.sequence rest a s.inflight[a]? t.inflight[a]?
  bounded : ∀ p ∈ ids, p.1 ≤ s.probe.sequence ∧ p.2 ≤ t.probe.sequence
  left : (ids.map Prod.fst).Nodup
  right : (ids.map Prod.snd).Nodup

end

variable {Rejects : Urb → Prop} {ids : List (Nat × Nat)} {bound : Nat} {rest : List (Scene × Hook)}
  {pairs : List (Option Call × Call)} {s t s' t' : Tracker}

/-- More ids, above the old bound. -/
structure Grows (ids ids' : List (Nat × Nat)) (bound bound' : Nat) : Prop where
  sub : ids ⊆ ids'
  new : ∀ j ∈ ids'.map Prod.snd, j ∈ ids.map Prod.snd ∨ bound < j
  le : bound ≤ bound'

theorem Grows.foreign {ids' : List (Nat × Nat)} {bound' j : Nat} (h : Grows ids ids' bound bound')
    (hj : j ∉ ids.map Prod.snd) (hle : j ≤ bound) : j ∉ ids'.map Prod.snd ∧ j ≤ bound' :=
  ⟨fun hmem => (h.new j hmem).elim hj (fun hlt => absurd hle (Nat.not_le.mpr hlt)), hle.trans h.le⟩

theorem Beside.grows {ids' : List (Nat × Nat)} {bound' : Nat} {a : Option Call} {b : Call}
    (h : Beside Rejects ids bound a b) (hg : Grows ids ids' bound bound') :
    Beside Rejects ids' bound' a b := by
  cases h with
  | both paired twin => exact .both (hg.sub paired) twin
  | only rejects keeps foreign bounded =>
    obtain ⟨h1, h2⟩ := hg.foreign foreign bounded
    exact .only rejects keeps h1 h2

theorem Entry.grows {ids' : List (Nat × Nat)} {bound' : Nat} {a : UInt64} {x y : Option State}
    {rest' : List (Scene × Hook)} (h : Entry Rejects ids bound rest a x y)
    (hg : Grows ids ids' bound bound')
    (hrest : ∀ urb, x = none → y ≠ none → Returned urb a rest → Returned urb a rest') :
    Entry Rejects ids' bound' rest' a x y := by
  cases h with
  | absent => exact .absent
  | both paired status => exact .both (hg.sub paired) status
  | only rejects returned foreign bounded =>
    obtain ⟨h1, h2⟩ := hg.foreign foreign bounded
    exact .only rejects (hrest _ rfl (by simp) returned) h1 h2

theorem Grows.same {bound' : Nat} (h : bound ≤ bound') : Grows ids ids bound bound' :=
  ⟨List.Subset.refl _, fun _ hj => .inl hj, h⟩

/-! ## One step of both -/

/-- The effect with other calls. -/
def Effect.map (f : Call → Call) : Effect → Effect
  | .nothing => .nothing
  | .store address status => .store address status
  | .finish address call => .finish address fun state => f (call state)

theorem effect_load (scene : Scene) (bus device : UInt32) (predicates : List KernelPredicate)
    (hook : Hook) : (scene.load bus device predicates).effect hook =
      (scene.effect hook).map fun call =>
        { call with config := (scene.load bus device predicates).config } := by
  cases hook with
  | submit a => rfl
  | submitError a ret =>
    cases ret with
    | none => rfl
    | some status =>
      simp only [Scene.effect]
      by_cases hfailed : status < 0
      · rw [if_pos hfailed, if_pos hfailed]
        rfl
      · rw [if_neg hfailed, if_neg hfailed]
        rfl
  | giveback a => rfl
  | complete caller address =>
    by_cases hforeign : caller < scene.config.givebackStart ∨ scene.config.givebackEnd ≤ caller
    · have hnothing : scene.effect (.complete caller address) = .nothing := if_pos hforeign
      rw [hnothing]
      exact if_pos hforeign
    · cases address with
      | none =>
        have hnothing : scene.effect (.complete caller none) = .nothing := if_neg hforeign
        rw [hnothing]
        exact if_neg hforeign
      | some a =>
        have hfinish : scene.effect (.complete caller (some a)) =
          .finish a fun state => scene.call state.id completeType state.status := if_neg hforeign
        rw [hfinish]
        exact if_neg hforeign

theorem entry_map (f : Call → Call) (e : Effect) (b : UInt64) (entry : Option State) :
    (e.map f).entry b entry = e.entry b entry := by
  cases e <;> rfl

/-- The last call of a URB is that of its entry. -/
theorem finish_call {scene : Scene} {hook : Hook} {a : UInt64} {call : State → Call}
    (h : scene.effect hook = .finish a call) (state : State) :
    (call state).urbId = state.id ∧ (call state).urb = scene.urb ∧
      (call state).eventType ≠ submitType ∧
      ∀ other : State, state.status = other.status →
        call state = { call other with urbId := state.id } := by
  cases hook with
  | submit a => cases h
  | submitError a ret =>
    cases ret with
    | none => cases h
    | some status =>
      unfold Scene.effect at h
      dsimp only at h
      split at h
      · cases h
        exact ⟨rfl, rfl, (by decide : errorType ≠ submitType), fun _ _ => rfl⟩
      · cases h
  | giveback a => cases h
  | complete caller address =>
    unfold Scene.effect at h
    dsimp only at h
    split at h
    · cases h
    · cases address with
      | none => cases h
      | some a =>
        cases h
        refine ⟨rfl, rfl, (by decide : completeType ≠ submitType), fun other hstatus => ?_⟩
        simp only [Scene.call, hstatus]

theorem Entry.effect {scene : Scene} {hook : Hook} {a : UInt64} {x y : Option State}
    (h : Entry Rejects ids bound ((scene, hook) :: rest) a x y)
    (hsubmit : hook = .submit a → scene.config.enabled = 0) :
    Entry Rejects ids bound rest a ((scene.effect hook).entry a x)
      ((scene.effect hook).entry a y) := by
  cases h with
  | absent => cases scene.effect hook <;> simp [Effect.entry, Entry.absent]
  | both paired status =>
    cases scene.effect hook with
    | nothing => exact .both paired status
    | store b status' =>
      dsimp only [Effect.entry]
      split
      · exact .both paired rfl
      · exact .both paired status
    | finish b call =>
      dsimp only [Effect.entry]
      split
      · exact .absent
      · exact .both paired status
  | only rejects returned foreign bounded =>
    cases heffect : scene.effect hook with
    | nothing =>
      exact .only rejects (returned.tail hsubmit (by simp [heffect])) foreign bounded
    | store b status =>
      have htail := returned.tail hsubmit (by simp [heffect])
      dsimp only [Effect.entry]
      split
      · exact .only rejects htail foreign bounded
      · exact .only rejects htail foreign bounded
    | finish b call =>
      dsimp only [Effect.entry]
      split
      · exact .absent
      · rename_i hne
        refine .only rejects (returned.tail hsubmit fun call' hcall => hne ?_) foreign bounded
        rw [heffect] at hcall
        exact (Effect.finish.inj hcall).1

/-- The calls of an effect on both tables. -/
theorem Entry.calls {scene : Scene} {hook : Hook} {bus device : UInt32}
    {predicates : List KernelPredicate} {x y : UInt64 → Option State}
    (h : ∀ a, Entry Rejects ids bound ((scene, hook) :: rest) a (x a) (y a)) :
    ∃ new : List (Option Call × Call), (∀ p ∈ new, Beside Rejects ids bound p.1 p.2) ∧
      ((scene.load bus device predicates).effect hook).calls x = new.filterMap Prod.fst ∧
      (scene.loadAll.effect hook).calls y = new.map Prod.snd := by
  rw [Scene.loadAll, effect_load, effect_load]
  cases heffect : scene.effect hook with
  | nothing => exact ⟨[], List.forall_mem_nil _, rfl, rfl⟩
  | store b status => exact ⟨[], List.forall_mem_nil _, rfl, rfl⟩
  | finish b call =>
    dsimp only [Effect.map, Effect.calls]
    have hb := h b
    generalize x b = x at hb
    generalize y b = y at hb
    cases hb with
    | absent => exact ⟨[], List.forall_mem_nil _, rfl, rfl⟩
    | @both s t paired status =>
      obtain ⟨hids, -, -, hsame⟩ := finish_call heffect s
      obtain ⟨hidt, -, -, -⟩ := finish_call heffect t
      refine ⟨[(some { call s with config := _ }, { call t with config := _ })], ?_, rfl, rfl⟩
      intro p hp
      rw [List.mem_singleton.mp hp]
      refine .both ?_ ⟨?_, rfl, rfl⟩
      · dsimp only
        rwa [hids, hidt]
      · rw [hsame t status]
    | @only t urb rejects returned foreign bounded =>
      obtain ⟨hid, hurb, -, -⟩ := finish_call heffect t
      refine ⟨[(none, { call t with config := _ })], ?_, rfl, rfl⟩
      intro p hp
      rw [List.mem_singleton.mp hp]
      have hkeeps := returned.keeps heffect
      exact .only rejects (by dsimp only; rwa [hurb]) (by dsimp only; rwa [hid])
        (by dsimp only; rwa [hid])

section

variable {bus device : UInt32} {predicates : List KernelPredicate} {scene : Scene} {hook : Hook}

/-- What a step adds to the two runs. -/
structure Advances (Rejects : Urb → Prop) (pairs : List (Option Call × Call))
    (rest : List (Scene × Hook)) (r r' : Tracker × List Output) : Prop where
  next : ∃ ids new, Shadow Rejects ids (pairs ++ new) r.1 r'.1 rest ∧
    callsOf r.2 = new.filterMap Prod.fst ∧ callsOf r'.2 = new.map Prod.snd

/-- A step with an effect, or none. -/
theorem Shadow.effect (h : Shadow Rejects ids pairs s t ((scene, hook) :: rest))
    (hsubmit : ∀ a, hook = .submit a → scene.config.enabled = 0) {r r' : Tracker × List Output}
    (hr : (r.1.inflight, callsOf r.2) = ((scene.load bus device predicates).effect hook).apply s.inflight)
    (hr' : (r'.1.inflight, callsOf r'.2) = (scene.loadAll.effect hook).apply t.inflight)
    (hseq : s.probe.sequence ≤ r.1.probe.sequence) (hseq' : t.probe.sequence ≤ r'.1.probe.sequence) :
    Advances Rejects pairs rest r r' := by
  have hgrows : Grows ids ids t.probe.sequence r'.1.probe.sequence := .same hseq'
  obtain ⟨new, hnew, hcalls, hcalls'⟩ := @Entry.calls Rejects ids t.probe.sequence rest scene hook bus
    device predicates _ _ h.table
  have hi := congrArg Prod.fst hr
  have hc := congrArg Prod.snd hr
  have hi' := congrArg Prod.fst hr'
  have hc' := congrArg Prod.snd hr'
  dsimp only at hi hc hi' hc'
  refine ⟨ids, new, ⟨?_, ?_, ?_, h.left, h.right⟩, ?_, ?_⟩
  · intro p hp
    rcases List.mem_append.mp hp with hp | hp
    · exact (h.calls p hp).grows hgrows
    · exact (hnew p hp).grows hgrows
  · intro a
    rw [hi, hi', apply_get, apply_get, Scene.loadAll, effect_load, effect_load, entry_map, entry_map]
    exact ((h.table a).effect (hsubmit a)).grows hgrows fun _ _ _ hret => hret
  · intro p hp
    obtain ⟨h1, h2⟩ := h.bounded p hp
    exact ⟨h1.trans hseq, h2.trans hseq'⟩
  · rw [hc, apply_calls, hcalls]
  · rw [hc', apply_calls, hcalls']

/-- A submission that both runs track, or only the full one. -/
theorem Shadow.submit {a : UInt64} (h : Shadow Rejects ids pairs s t ((scene, .submit a) :: rest))
    (hreturned : Returned scene.urb a rest) {r r' : Tracker × List Output} {id' : Nat}
    (htracks : TracksNew t scene.loadAll a r'.1 (callsOf r'.2) id')
    (hr : (r.1.inflight = s.inflight ∧ callsOf r.2 = [] ∧ Rejects scene.urb) ∨
      ∃ id, TracksNew s (scene.load bus device predicates) a r.1 (callsOf r.2) id)
    (hseq : s.probe.sequence ≤ r.1.probe.sequence) : Advances Rejects pairs rest r r' := by
  have hseq' : t.probe.sequence ≤ r'.1.probe.sequence := htracks.above.le.trans htracks.below
  have hfresh : id' ∉ ids.map Prod.snd := by
    intro hmem
    obtain ⟨p, hp, rfl⟩ := List.mem_map.mp hmem
    have := (h.bounded p hp).2
    have := htracks.above
    omega
  have habsent : t.inflight[a]? = none :=
    Std.ExtTreeMap.getElem?_eq_none htracks.absent
  have hentry := h.table a
  rw [habsent] at hentry
  have hnone : s.inflight[a]? = none := by
    cases hentry' : s.inflight[a]? with
    | none => rfl
    | some state =>
      rw [hentry'] at hentry
      cases hentry
  -- the entries of the other addresses wait on
  have hother : ∀ b, a ≠ b → ∀ {ids' : List (Nat × Nat)},
      Grows ids ids' t.probe.sequence r'.1.probe.sequence →
      Entry Rejects ids' r'.1.probe.sequence rest b s.inflight[b]? t.inflight[b]? := by
    intro b hne ids' hg
    refine (h.table b).grows hg fun urb _ _ hret => hret.tail (fun heq => ?_) (fun _ => nofun)
    exact absurd (Hook.submit.inj heq) hne
  rcases hr with ⟨hinflight, hcalls, hrejects⟩ | ⟨id, hnew⟩
  · have hgrows : Grows ids ids t.probe.sequence r'.1.probe.sequence := .same hseq'
    refine ⟨ids, [(none, scene.loadAll.call id' submitType (-115))], ⟨?_, ?_, ?_, h.left, h.right⟩,
      hcalls, htracks.emitted⟩
    · intro p hp
      rcases List.mem_append.mp hp with hp | hp
      · exact (h.calls p hp).grows hgrows
      · rw [List.mem_singleton.mp hp]
        exact .only hrejects (.refl _) hfresh htracks.below
    · intro b
      rw [hinflight, htracks.inserted, get_insert]
      split
      · rename_i hab
        rw [← hab, hnone]
        exact .only hrejects hreturned hfresh htracks.below
      · rename_i hne
        exact hother b hne hgrows
    · intro p hp
      obtain ⟨h1, h2⟩ := h.bounded p hp
      exact ⟨h1.trans hseq, h2.trans hseq'⟩
  · have hgrows : Grows ids (ids ++ [(id, id')]) t.probe.sequence r'.1.probe.sequence := by
      refine ⟨List.subset_append_left _ _, fun j hj => ?_, hseq'⟩
      rw [List.map_append, List.mem_append] at hj
      rcases hj with hj | hj
      · exact .inl hj
      · exact .inr (List.mem_singleton.mp hj ▸ htracks.above)
    have hpaired : (id, id') ∈ ids ++ [(id, id')] := by simp
    refine ⟨ids ++ [(id, id')], [(some ((scene.load bus device predicates).call id submitType (-115)),
      scene.loadAll.call id' submitType (-115))], ⟨?_, ?_, ?_, ?_, ?_⟩, hnew.emitted, htracks.emitted⟩
    · intro p hp
      rcases List.mem_append.mp hp with hp | hp
      · exact (h.calls p hp).grows hgrows
      · rw [List.mem_singleton.mp hp]
        exact .both hpaired ⟨rfl, rfl, rfl⟩
    · intro b
      rw [hnew.inserted, htracks.inserted, get_insert, get_insert]
      split
      · exact .both hpaired rfl
      · rename_i hne
        exact hother b hne hgrows
    · intro p hp
      rcases List.mem_append.mp hp with hp | hp
      · obtain ⟨h1, h2⟩ := h.bounded p hp
        exact ⟨h1.trans hseq, h2.trans hseq'⟩
      · rw [List.mem_singleton.mp hp]
        exact ⟨hnew.below, htracks.below⟩
    · rw [List.map_append, List.nodup_append]
      refine ⟨h.left, by simp, fun i hi j hj heq => ?_⟩
      obtain ⟨p, hp, rfl⟩ := List.mem_map.mp hi
      have hj' : j = id := List.mem_singleton.mp hj
      have := (h.bounded p hp).1
      have := hnew.above
      omega
    · rw [List.map_append, List.nodup_append]
      refine ⟨h.right, by simp, fun i hi j hj heq => ?_⟩
      have hj' : j = id' := List.mem_singleton.mp hj
      exact hfresh (hj' ▸ heq ▸ hi)

theorem Shadow.step (h : Shadow Rejects ids pairs s t ((scene, hook) :: rest))
    (hrejects : ∀ (scene : Scene) m buffer sg, scene.urb.submission = some (m, buffer, sg) →
      (scene.load bus device predicates).Refuses m → Rejects scene.urb)
    (hsteady : ∀ a, hook = .submit a → Returned scene.urb a rest)
    (hs : (s.step (scene.load bus device predicates, hook)).1.probe.Clean)
    (ht : (t.step (scene.loadAll, hook)).1.probe.Clean) :
    Advances Rejects pairs rest (s.step (scene.load bus device predicates, hook))
      (t.step (scene.loadAll, hook)) := by
  have hseq := (step_move s (scene.load bus device predicates, hook)).newIds.1
  have hseq' := (step_move t (scene.loadAll, hook)).newIds.1
  by_cases hsub : ∃ a, hook = .submit a
  · obtain ⟨a, rfl⟩ := hsub
    rcases submit_clean ht with ⟨hi', hc', hwhy⟩ | ⟨henabled, -, id', htracks⟩
    · -- capture is disabled, in both runs
      have hdisabled : scene.config.enabled = 0 := by
        rcases hwhy with hdisabled | ⟨m, buffer, sg, -, hrefuses⟩
        · exact hdisabled
        · exact absurd hrefuses loadAll_accepts
      rcases submit_clean hs with ⟨hi, hc, -⟩ | ⟨henabled, -⟩
      · refine @Shadow.effect Rejects ids rest pairs s t bus device predicates scene (.submit a) h
          (fun _ _ => hdisabled) _ _ ?_ ?_ hseq hseq'
        · exact Prod.ext hi (congrArg callsOf hc)
        · exact Prod.ext hi' (congrArg callsOf hc')
      · exact absurd hdisabled henabled
    · rcases submit_clean hs with ⟨hi, hc, hwhy⟩ | ⟨-, -, hnew⟩
      · rcases hwhy with hdisabled | ⟨m, buffer, sg, hread, hrefuses⟩
        · exact absurd hdisabled henabled
        · have hrejected := hrejects scene m buffer sg hread hrefuses
          exact @Shadow.submit Rejects ids rest pairs s t bus device predicates scene a h
            (hsteady a rfl) _ _ id' htracks (.inl ⟨hi, congrArg callsOf hc, hrejected⟩) hseq
      · exact h.submit (hsteady a rfl) htracks (.inr hnew) hseq
  · have hother : ∀ a, hook ≠ .submit a := fun a ha => hsub ⟨a, ha⟩
    exact h.effect (fun a ha => absurd ha (hother a)) (step_effect hother hs) (step_effect hother ht)
      hseq hseq'

/-- Two clean runs over the same steps, from their first step to the last. -/
theorem Shadow.run {steps : List (Scene × Hook)} (h : Shadow Rejects ids pairs s t steps)
    (hrejects : ∀ (scene : Scene) m buffer sg, scene.urb.submission = some (m, buffer, sg) →
      (scene.load bus device predicates).Refuses m → Rejects scene.urb)
    (hsteady : Steady steps)
    (hs : (s.run (loaded (Scene.load bus device predicates) steps)).1.probe.Clean)
    (ht : (t.run (loaded Scene.loadAll steps)).1.probe.Clean) :
    Advances Rejects pairs [] (s.run (loaded (Scene.load bus device predicates) steps))
      (t.run (loaded Scene.loadAll steps)) := by
  induction steps generalizing ids pairs s t with
  | nil => exact ⟨ids, [], by rwa [List.append_nil], rfl, rfl⟩
  | cons x rest ih =>
    obtain ⟨scene, hook⟩ := x
    obtain ⟨hreturned, hrest⟩ := hsteady
    have hcons : ∀ (u : Tracker) (load : Scene → Scene),
        u.run (loaded load ((scene, hook) :: rest)) =
          (((u.step (load scene, hook)).1.run (loaded load rest)).1,
            (u.step (load scene, hook)).2 ++ ((u.step (load scene, hook)).1.run (loaded load rest)).2) :=
      fun u load => Trace.run_cons _ _ _ _
    rw [hcons] at hs ht ⊢
    rw [hcons]
    obtain ⟨ids₁, new₁, hshadow, hc₁, hc₁'⟩ :=
      h.step hrejects hreturned (clean_of_run hs) (clean_of_run ht)
    obtain ⟨ids₂, new₂, hfinal, hc₂, hc₂'⟩ := ih hshadow hrest hs ht
    refine ⟨ids₂, new₁ ++ new₂, by rwa [← List.append_assoc], ?_, ?_⟩
    · rw [callsOf_append, hc₁, hc₂, List.filterMap_append]
    · rw [callsOf_append, hc₁', hc₂', List.map_append]

/-- From fresh tables on. -/
theorem shadow_of_runs (faults faults' : List Bool) {steps : List (Scene × Hook)}
    (hrejects : ∀ (scene : Scene) m buffer sg, scene.urb.submission = some (m, buffer, sg) →
      (scene.load bus device predicates).Refuses m → Rejects scene.urb)
    (hsteady : Steady steps)
    (hs : ((Tracker.fresh faults).run
      (loaded (Scene.load bus device predicates) steps)).1.probe.Clean)
    (ht : ((Tracker.fresh faults').run (loaded Scene.loadAll steps)).1.probe.Clean) :
    Advances Rejects [] []
      ((Tracker.fresh faults).run (loaded (Scene.load bus device predicates) steps))
      ((Tracker.fresh faults').run (loaded Scene.loadAll steps)) := by
  have hstart : Shadow Rejects [] [] (Tracker.fresh faults) (Tracker.fresh faults') steps :=
    ⟨List.forall_mem_nil _, fun _ => .absent, List.forall_mem_nil _, List.nodup_nil, List.nodup_nil⟩
  exact hstart.run hrejects hsteady hs ht

end

/-! ## Events -/

/-- The event under another URB id. -/
def renamed (id : UInt64) (e : Event) : Event :=
  { e with metadata := { e.metadata with urbId := id } }

theorem coreReadUrb_urbId (urb : Urb) (m : EventMeta) (id : UInt64) :
    coreReadUrb urb { m with urbId := id } =
      (coreReadUrb urb m).map fun r => ({ r.1 with urbId := id }, r.2) := by
  unfold coreReadUrb
  dsimp only
  split
  · rfl
  · rfl

/-- Twins have the same event, but for the id. -/
theorem Call.Twin.image {a b : Call} (h : a.Twin b) :
    a.image = b.image.map (renamed (UInt64.ofNat a.urbId)) := by
  obtain ⟨hsame, hmemory, hepoch⟩ := h
  generalize a.urbId = id at *
  generalize a.config = config at *
  subst hsame
  have hbase : Call.base { b with urbId := id, config := config } =
      { b.base with urbId := UInt64.ofNat id } := by
    simp only [Call.base, hepoch]
  unfold Call.image
  rw [hbase, coreReadUrb_urbId]
  cases coreReadUrb b.urb b.base with
  | none => rfl
  | some r =>
    dsimp only [Option.map_some, renamed, Call.payload, Call.declare]
    rw [hmemory]
    rfl

/-- The metadata of an image are those of the URB. -/
theorem image_read {call : Call} {e : Event} (h : call.image = some e) :
    e.sourceId = 0 ∧ e.metadata.urbId = UInt64.ofNat call.urbId ∧
      ∃ m buffer sg, coreReadUrb call.urb call.base = some (m, buffer, sg) ∧ SameUrb m e.metadata := by
  unfold Call.image at h
  cases hread : coreReadUrb call.urb call.base with
  | none =>
    rw [hread] at h
    cases h
  | some r =>
    obtain ⟨m, buffer, sg⟩ := r
    rw [hread] at h
    cases h
    refine ⟨rfl, ?_, m, buffer, sg, rfl, ⟨rfl, rfl, rfl, rfl, rfl, rfl, rfl, rfl⟩⟩
    unfold coreReadUrb at hread
    dsimp only at hread
    split at hread
    · cases hread
    · cases hread
      rfl

/-- The event of a URB that was refused under its submission. -/
theorem image_keeps {urb : Urb} {call : Call} {e : Event} {m : EventMeta} {buffer : UInt64}
    {sg : UInt32} (hread : urb.submission = some (m, buffer, sg)) (hkeeps : urb.Keeps call.urb)
    (h : call.image = some e) : SameUrb m e.metadata := by
  obtain ⟨-, -, n, buffer', sg', hcall, hsame⟩ := image_read h
  have hurb := hkeeps.sameUrb hread hcall
  exact ⟨hurb.bus.trans hsame.bus, hurb.device.trans hsame.device, hurb.vid.trans hsame.vid,
    hurb.pid.trans hsame.pid, hurb.endpoint.trans hsame.endpoint,
    hurb.transferType.trans hsame.transferType, hurb.requestedLen.trans hsame.requestedLen,
    hurb.isoCount.trans hsame.isoCount⟩

end UsbScope.Ebpf
