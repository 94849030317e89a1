import BloomBee.Sanity.TaskPoolCalls

/-! Conservation in the task pool: over every interleaving of the calls, each task is in one place,
is dispatched once and answered with its own answer. -/

set_option autoImplicit false

namespace BloomBee.TaskPoolCalls

variable {V ε : Type} {config : Config} {w w' : World V ε} {s s' : State V ε} {c c' : Call V ε}
  {before after : List (Call V ε)}

/-! ### Where the tasks are -/

/-- What a step takes from one place it puts into another; `new` are the tasks it submits. -/
structure Balanced (config : Config) (new : List (Task V)) (w : World V ε) (cs : List (Call V ε))
    (w' : World V ε) (cs' : List (Call V ε)) : Prop where
  submitted : w'.submitted = w.submitted ++ new
  sized : ∀ task ∈ new, ∃ size, getTaskSize task.args = some size
  accepted : (cs'.flatMap Call.undispatched ++ (w'.queued ++ w'.dispatched)).Perm
    (new.filter (fits config) ++ (cs.flatMap Call.undispatched ++ (w.queued ++ w.dispatched)))
  delivered : (w.dispatched.map Task.uid ++ (cs'.flatMap Call.delivered ++ w'.loaded)).Perm
    (w'.dispatched.map Task.uid ++ (cs.flatMap Call.delivered ++ w.loaded))
  rejected : ((cs'.flatMap Call.rejected).map Task.uid ++ w'.refused).Perm
    ((new.filter fun task => !fits config task).map Task.uid ++
      ((cs.flatMap Call.rejected).map Task.uid ++ w.refused))
  pipe : w'.pipe + w'.dispatched.length + cs'.countP Call.unsent + cs.countP Call.unreceived =
    w.pipe + w.dispatched.length + cs.countP Call.unsent + cs'.countP Call.unreceived +
      (new.filter (fits config)).length

open Classical in
theorem Placed.balanced {cs cs' : List (Call V ε)} {new : List (Task V)}
    (h : Placed config ⟨w, before ++ (cs ++ after)⟩) (hb : Balanced config new w cs w' cs') :
    Placed config ⟨w', before ++ (cs' ++ after)⟩ := by
  obtain ⟨hsized, haccepted, hdelivered, hrejected, hpipe⟩ := h
  refine ⟨?_, List.perm_iff_count.mpr fun t => ?_, List.perm_iff_count.mpr fun uid => ?_,
    List.perm_iff_count.mpr fun uid => ?_, ?_⟩
  · intro task htask
    rw [hb.submitted] at htask
    rcases List.mem_append.mp htask with htask | htask
    · exact hsized task htask
    · exact hb.sized task htask
  · have hcall := hb.accepted.count_eq t
    have hall := haccepted.count_eq t
    simp only [hb.submitted, List.filter_append, List.flatMap_append, List.count_append] at *
    omega
  · have hcall := hb.delivered.count_eq uid
    have hall := hdelivered.count_eq uid
    simp only [List.flatMap_append, List.count_append] at *
    omega
  · have hcall := hb.rejected.count_eq uid
    have hall := hrejected.count_eq uid
    simp only [hb.submitted, List.filter_append, List.flatMap_append, List.map_append,
      List.count_append] at *
    omega
  · have hcall := hb.pipe
    simp only [hb.submitted, List.filter_append, List.length_append, List.countP_append] at *
    omega

/-- A call that goes on carries its task from one place to the next. -/
theorem Goes.balanced (h : Goes config w c w' c') (hc : c.Fine config w) :
    Balanced config [] w [c] w' [c'] := by
  have hnew : w.submitted = w.submitted ++ [] := (List.append_nil _).symm
  have hsized : ∀ task ∈ ([] : List (Task V)), ∃ size, getTaskSize task.args = some size :=
    fun task htask => absurd htask List.not_mem_nil
  cases h with
  | rejecting task =>
    refine ⟨hnew, hsized, .refl _, ?_, ?_, rfl⟩
    · simp [World.loaded, Reply.rejects, Call.delivered]
    · simp [World.refused, Reply.rejects, Call.rejected]
  | putting task =>
    refine ⟨hnew, hsized, ?_, .refl _, .refl _, rfl⟩
    simp only [Call.undispatched, World.queued, List.reduceOption_append, List.append_assoc,
      List.flatMap_singleton, List.filter_nil, List.nil_append]
    exact List.perm_middle
  | sending task =>
    refine ⟨hnew, hsized, .refl _, .refl _, .refl _, ?_⟩
    simp [Call.unsent, Call.unreceived]
    omega
  | prioritizing task priority => exact ⟨hnew, hsized, .refl _, .refl _, .refl _, rfl⟩
  | timing load timings => exact ⟨hnew, hsized, .refl _, .refl _, .refl _, rfl⟩
  | dispatching load =>
    refine ⟨hnew, hsized, ?_, ?_, .refl _, ?_⟩
    · simp only [Call.undispatched, List.flatMap_singleton, List.filter_nil, List.nil_append,
        ← List.append_assoc]
      exact List.perm_append_singleton _ _
    · simp only [Call.delivered, List.flatMap_singleton, List.map_append, List.append_assoc]
      exact .refl _
    · simp [Call.unsent, Call.unreceived]
      omega
  | receiving load hpipe =>
    refine ⟨hnew, hsized, .refl _, .refl _, .refl _, ?_⟩
    simp [Call.unsent, Call.unreceived]
    omega
  | returning load priority =>
    refine ⟨hnew, hsized, .refl _, List.Perm.append_left _ ?_, .refl _, rfl⟩
    simp only [World.loaded, Call.delivered, List.flatMap_singleton, List.map_append,
      List.append_assoc]
    exact List.perm_middle
  | answering uid answer timings => exact ⟨hnew, hsized, .refl _, .refl _, .refl _, rfl⟩
  | popping task reply hget => exact ⟨hnew, hsized, .refl _, .refl _, .refl _, rfl⟩
  | resolving task reply =>
    obtain ⟨load, answer, hanswered⟩ := hc
    have hrejects : reply.rejects = false := by
      rw [hanswered.reply]
      exact Answer.rejects_reply _ _ answer
    refine ⟨hnew, hsized, .refl _, List.Perm.append_left _ ?_, ?_, rfl⟩
    · simp only [World.loaded, Call.delivered, List.flatMap_singleton, List.filter_append,
        List.map_append, hrejects, List.filter_singleton, List.nil_append, ← List.append_assoc]
      exact List.perm_append_singleton _ _
    · simp [World.refused, Call.rejected, hrejects]

/-! ### What the calls know -/

theorem Placed.uses_nodup (h : Placed config s) (hids : (s.world.submitted.map Task.uid).Nodup) :
    (s.calls.flatMap Call.uses ++ s.world.loaded).Nodup := by
  have haccepted := (h.accepted.map Task.uid).trans
    (List.Perm.trans (by rw [List.map_append, List.map_append])
      ((h.delivered.append_left _).append_left _))
  have hsub := (List.filter_sublist (p := fits config) (l := s.world.submitted)).map Task.uid
  have hnodup := haccepted.nodup_iff.mp (hids.sublist hsub)
  refine (List.Perm.nodup_iff (List.perm_iff_count.mpr fun uid => ?_)).mp
    (hnodup.sublist (List.Sublist.append_left (List.sublist_append_right _ _) _))
  have hsplit : ((s.calls.flatMap fun c => c.undispatched.map Task.uid) ++
      s.calls.flatMap Call.delivered).Perm (s.calls.flatMap Call.uses) :=
    List.flatMap_append_perm s.calls _ _
  have hcount := hsplit.count_eq uid
  simp only [List.map_flatMap, List.count_append] at hcount ⊢
  omega

/-- No other call, and nothing that was loaded, has a uid of the call that goes on. -/
theorem Placed.disjoint (h : Placed config ⟨w, before ++ c :: after⟩)
    (hids : (w.submitted.map Task.uid).Nodup) {uid : ℕ} (huid : uid ∈ c.uses) :
    (∀ d, d ∈ before ∨ d ∈ after → uid ∉ d.uses) ∧ uid ∉ w.loaded := by
  have hnodup := h.uses_nodup hids
  have hperm : ((before ++ c :: after).flatMap Call.uses ++ w.loaded).Perm
      (c.uses ++ ((before ++ after).flatMap Call.uses ++ w.loaded)) := by
    refine List.perm_iff_count.mpr fun uid => ?_
    simp only [List.flatMap_append, List.flatMap_cons, List.count_append]
    omega
  have hdisjoint := List.disjoint_of_nodup_append (hperm.nodup_iff.mp hnodup)
  refine ⟨fun d hd hmem => hdisjoint huid (List.mem_append_left _ ?_), fun hmem =>
    hdisjoint huid (List.mem_append_right _ hmem)⟩
  exact List.mem_flatMap.mpr ⟨d, List.mem_append.mpr hd, hmem⟩

theorem Goes.grows (h : Goes config w c w' c') : Grows w w' := by
  cases h with
  | dispatching load =>
    exact ⟨List.Subset.refl _, List.subset_append_left _ _, List.Subset.refl _, List.Subset.refl _⟩
  | returning load priority =>
    exact ⟨List.Subset.refl _, List.Subset.refl _, List.subset_append_left _ _, List.Subset.refl _⟩
  | _ => exact ⟨List.Subset.refl _, List.Subset.refl _, List.Subset.refl _, List.Subset.refl _⟩

theorem Goes.same (h : Goes config w c w' c') {uid : ℕ} (huid : uid ∉ c.uses) : Same w w' uid := by
  cases h with
  | timing load timings hset hsame => exact ⟨rfl, hsame uid (List.ne_of_not_mem_cons huid)⟩
  | dispatching load =>
    refine ⟨?_, rfl⟩
    rw [OrderedDict.get?_set, if_neg (List.ne_of_not_mem_cons huid)]
  | answering uid' answer timings hsame => exact ⟨rfl, hsame uid (List.ne_of_not_mem_cons huid)⟩
  | popping task reply hget =>
    exact ⟨get?_erase_of_ne (List.ne_of_not_mem_cons huid), rfl⟩
  | _ => exact ⟨rfl, rfl⟩

theorem Answer.reply_congr {trackTransferTiming : Bool} {timing timing' : Option RuntimeTiming}
    (h : trackTransferTiming = true → timing = timing') (answer : Answer V ε) :
    answer.reply trackTransferTiming timing = answer.reply trackTransferTiming timing' := by
  cases trackTransferTiming with
  | true => rw [h rfl]
  | false => cases answer <;> rfl

theorem Goes.fine (h : Goes config w c w' c') (hc : c.Fine config w) : c'.Fine config w' := by
  cases h with
  | timing load timings hset hsame => exact hset
  | dispatching load =>
    refine ⟨⟨?_, hc⟩, List.mem_append_right _ List.mem_cons_self⟩
    rw [OrderedDict.get?_set, if_pos rfl]
  | receiving load hpipe => exact ⟨hc.1.same ⟨rfl, rfl⟩, hc.2⟩
  | answering uid answer timings hsame =>
    obtain ⟨load, hmem, rfl, hstored⟩ := hc
    exact ⟨load, answer, ⟨hmem, rfl, Answer.reply_congr hstored.timing answer⟩, hstored.task⟩
  | popping task reply hget =>
    obtain ⟨load, answer, hanswered, hget'⟩ := hc
    exact ⟨load, answer, ⟨hanswered.mem, hanswered.uid, hanswered.reply⟩⟩
  | rejecting task => trivial
  | putting task => trivial
  | sending task => trivial
  | prioritizing task priority => trivial
  | returning load priority => trivial
  | resolving task reply => trivial

theorem mem_loaded {load : Load V} (h : load ∈ w.unanswered) : load.task.uid ∈ w.loaded :=
  List.mem_append_left _ (List.mem_map_of_mem h)

/-- What a step adds to the loads: that of the call, as it returns. -/
theorem Goes.loads (h : Goes config w c w' c') :
    (∀ load ∈ w'.loads, load ∈ w.loads ∨ c = .returning load) ∧
      ∀ load ∈ w'.unanswered, load ∈ w.unanswered ∨ c = .returning load ∧ load ∈ w'.loads := by
  cases h with
  | returning load priority =>
    refine ⟨fun load' hload => ?_, fun load' hload => ?_⟩
    · rcases List.mem_append.mp hload with hload | hload
      · exact .inl hload
      · exact .inr (by rw [List.mem_singleton.mp hload])
    · rcases List.mem_append.mp hload with hload | hload
      · exact .inl hload
      · exact .inr ⟨by rw [List.mem_singleton.mp hload], List.mem_append_right _ hload⟩
  | _ => exact ⟨fun _ hload => .inl hload, fun _ hload => .inl hload⟩

theorem Goes.call_loads (h : Goes config w c w' c') : c'.loads ⊆ c.loads := by
  cases h <;> first | exact List.Subset.refl _ | exact List.nil_subset _

theorem Goes.futures (h : Goes config w c w' c') (hc : c.Fine config w) :
    ∀ f ∈ w'.futures, f ∈ w.futures ∨ Own config w f := by
  cases h with
  | rejecting task =>
    intro f hf
    rcases List.mem_append.mp hf with hf | hf
    · exact .inl hf
    · rw [List.mem_singleton.mp hf]
      exact .inr (.inl ⟨task, hc.1, rfl, hc.2, rfl⟩)
  | resolving task reply =>
    intro f hf
    rcases List.mem_append.mp hf with hf | hf
    · exact .inl hf
    · rw [List.mem_singleton.mp hf]
      exact .inr (.inr hc)
  | _ => exact fun f hf => .inl hf

theorem Goes.answers (h : Goes config w c w' c') :
    w'.answers = w.answers ∧ w'.errors = w.errors := by
  cases h <;> exact ⟨rfl, rfl⟩

theorem Known.goes (h : Known config ⟨w, before ++ c :: after⟩)
    (hp : Placed config ⟨w, before ++ c :: after⟩) (hids : (w.submitted.map Task.uid).Nodup)
    (hgoes : Goes config w c w' c') : Known config ⟨w', before ++ c' :: after⟩ := by
  have hc : c.Fine config w := h.calls c (List.mem_append_right _ List.mem_cons_self)
  have hgrows := hgoes.grows
  obtain ⟨hloads, hunanswered⟩ := hgoes.loads
  have hbeside : ∀ d, d ∈ before ∨ d ∈ after → d.Fine config w' := by
    intro d hd
    have hfine : d.Fine config w := h.calls d (by
      rcases hd with hd | hd
      · exact List.mem_append_left _ hd
      · exact List.mem_append_right _ (List.mem_cons_of_mem _ hd))
    exact hfine.frame hgrows fun uid huid => hgoes.same fun hmem =>
      (hp.disjoint hids hmem).1 d hd huid
  exact
    { calls := by
        intro d hd
        rcases List.mem_append.mp hd with hd | hd
        · exact hbeside d (.inl hd)
        · rcases List.mem_cons.mp hd with rfl | hd
          · exact hgoes.fine hc
          · exact hbeside d (.inr hd)
      unanswered := by
        intro load hload
        rcases hunanswered load hload with hload | ⟨rfl, hlogged⟩
        · obtain ⟨hstored, hmem⟩ := h.unanswered load hload
          refine ⟨hstored.same (hgoes.same fun huid => ?_), hgrows.loads hmem⟩
          exact (hp.disjoint hids huid).2 (mem_loaded hload)
        · cases hgoes
          exact ⟨hc.1.same ⟨rfl, rfl⟩, hlogged⟩
      loads := by
        intro load hload
        rcases hloads load hload with hload | rfl
        · exact hgrows.dispatched (h.loads load hload)
        · exact hgrows.dispatched hc.2
      answers := by
        rw [hgoes.answers.1]
        exact fun a ha => hgrows.loads (h.answers a ha)
      futures := by
        intro f hf
        rcases hgoes.futures hc f hf with hf | hown
        · exact (h.futures f hf).grows hgrows
        · exact hown.grows hgrows
      errors := hgoes.answers.2.trans h.errors }

/-! ### Runs -/

def Event.uid? : Event V ε → Option ℕ
  | .submitTask uid _ _ _ => some uid
  | _ => none

def uidsOf (events : List (Event V ε)) : List ℕ := events.filterMap Event.uid?

/-- A step that leaves the dictionaries and the calls as they are and adds a call. -/
theorem Known.add (h : Known config s) (hgrows : Grows s.world w')
    (hsame : ∀ uid, Same s.world w' uid) {new : List (Call V ε)}
    (hnew : ∀ c ∈ new, c.Fine config w') (hunanswered : w'.unanswered ⊆ s.world.unanswered)
    (hloads : w'.loads = s.world.loads) (hanswers : ∀ a ∈ w'.answers, a.1 ∈ w'.loads)
    (hfutures : w'.futures = s.world.futures) (herrors : w'.errors = s.world.errors) :
    Known config ⟨w', s.calls ++ new⟩ where
  calls := by
    intro c hc
    rcases List.mem_append.mp hc with hc | hc
    · exact (h.calls c hc).frame hgrows fun uid _ => hsame uid
    · exact hnew c hc
  unanswered := by
    intro load hload
    obtain ⟨hstored, hmem⟩ := h.unanswered load (hunanswered hload)
    exact ⟨hstored.same (hsame _), hgrows.loads hmem⟩
  loads := fun load hload => hgrows.dispatched (h.loads load (hloads ▸ hload))
  answers := hanswers
  futures := by
    intro f hf
    exact (h.futures f (hfutures ▸ hf)).grows hgrows
  errors := herrors.trans h.errors

/-- In the run a load took this task, a least one of the ordered queue then, and moved its
arguments. -/
def Taken (config : Config) (events : List (Event V ε)) (load : Load V) : Prop :=
  ∃ before i device transferMs after s, events = before ++ .load i device transferMs :: after ∧
    Runs.run (step config) start before = some s ∧
    s.world.orderedTasks[i]? = some load.task ∧
    (∀ other ∈ s.world.orderedTasks, load.task.key ≤ other.key) ∧
    (load.inputs, load.timing) = moveInputs (device <|> config.device) load.task.args transferMs {}

theorem Taken.concat {events : List (Event V ε)} {load : Load V} (h : Taken config events load)
    (e : Event V ε) : Taken config (events ++ [e]) load := by
  obtain ⟨before, i, device, transferMs, after, s, rfl, h⟩ := h
  refine ⟨before, i, device, transferMs, after ++ [e], s, ?_, h⟩
  rw [List.append_assoc, List.cons_append]

structure Inv (config : Config) (events : List (Event V ε)) (s : State V ε) : Prop where
  placed : Placed config s
  known : Known config s
  ids : (s.world.submitted.map Task.uid).Sublist (uidsOf events)
  taken : ∀ load, load ∈ s.calls.flatMap Call.loads ∨ load ∈ s.world.loads →
    Taken config events load

theorem inv_start : Inv config [] (start : State V ε) where
  placed := ⟨fun _ h => absurd h List.not_mem_nil, .nil, .nil, .nil, rfl⟩
  known :=
    { calls := fun _ h => absurd h List.not_mem_nil
      unanswered := fun _ h => absurd h List.not_mem_nil
      loads := fun _ h => absurd h List.not_mem_nil
      answers := fun _ h => absurd h List.not_mem_nil
      futures := fun _ h => absurd h List.not_mem_nil
      errors := rfl }
  ids := .slnil
  taken := fun _ h => h.elim (fun h => absurd h List.not_mem_nil) fun h => absurd h List.not_mem_nil

variable {events : List (Event V ε)} {e : Event V ε}

theorem Inv.ids_concat (h : Inv config events s) (e : Event V ε) :
    (s.world.submitted.map Task.uid).Sublist (uidsOf (events ++ [e])) := by
  unfold uidsOf
  rw [List.filterMap_append]
  exact h.ids.trans (List.sublist_append_left _ _)

/-- A step that adds `new` calls and leaves the dictionaries as they are. -/
theorem Inv.add (h : Inv config events s) {new : List (Task V)} {cs : List (Call V ε)}
    (hids : (w'.submitted.map Task.uid).Sublist (uidsOf (events ++ [e])))
    (hb : Balanced config new s.world [] w' cs) (hgrows : Grows s.world w')
    (hsame : ∀ uid, Same s.world w' uid) (hfine : ∀ c ∈ cs, c.Fine config w')
    (hunanswered : w'.unanswered ⊆ s.world.unanswered) (hloads : w'.loads = s.world.loads)
    (hanswers : ∀ a ∈ w'.answers, a.1 ∈ w'.loads) (hfutures : w'.futures = s.world.futures)
    (herrors : w'.errors = s.world.errors)
    (htaken : ∀ load ∈ cs.flatMap Call.loads, Taken config (events ++ [e]) load) :
    Inv config (events ++ [e]) ⟨w', s.calls ++ cs⟩ where
  placed := by
    have hplaced : Placed config ⟨s.world, s.calls ++ ([] ++ [])⟩ := by
      rw [List.append_nil, List.append_nil]
      exact h.placed
    have hplaced' := hplaced.balanced hb
    rwa [List.append_nil] at hplaced'
  known := h.known.add hgrows hsame hfine hunanswered hloads hanswers hfutures herrors
  ids := hids
  taken := by
    rintro load (hload | hload)
    · rw [List.flatMap_append] at hload
      rcases List.mem_append.mp hload with hload | hload
      · exact (h.taken load (.inl hload)).concat e
      · exact htaken load hload
    · exact (h.taken load (.inr (hloads ▸ hload))).concat e

theorem Inv.submitTask (h : Inv config events s) {uid : ℕ} {priority timeSubmitted : ℚ}
    {args : List (Value V)}
    (hstep : step config s (.submitTask uid priority timeSubmitted args) = some s') :
    Inv config (events ++ [.submitTask uid priority timeSubmitted args]) s' := by
  rw [step] at hstep
  rcases hsize : getTaskSize args with - | size
  · rw [hsize] at hstep
    obtain rfl := Option.some.inj hstep
    exact ⟨h.placed, h.known, h.ids_concat _, fun load hload => (h.taken load hload).concat _⟩
  · rw [hsize] at hstep
    obtain rfl := Option.some.inj hstep
    set task : Task V := ⟨priority, timeSubmitted, uid, args⟩
    have hsized : ∀ t ∈ [task], ∃ size, getTaskSize t.args = some size := by
      intro t ht
      rw [List.mem_singleton.mp ht]
      exact ⟨size, hsize⟩
    have hids : ((s.world.submitted ++ [task]).map Task.uid).Sublist
        (uidsOf (events ++ [.submitTask uid priority timeSubmitted args])) := by
      unfold uidsOf
      rw [List.map_append, List.filterMap_append]
      exact h.ids.append (.refl _)
    have hgrows : Grows s.world { s.world with submitted := s.world.submitted ++ [task] } :=
      ⟨List.subset_append_left _ _, List.Subset.refl _, List.Subset.refl _, List.Subset.refl _⟩
    have hsame : ∀ uid,
        Same s.world { s.world with submitted := s.world.submitted ++ [task] } uid :=
      fun uid => ⟨rfl, rfl⟩
    by_cases hlt : config.maxBatchSize < (size : ℤ)
    · have hfits : fits config task = false := by
        rw [fits, hsize]
        simpa using hlt
      rw [if_pos hlt]
      refine h.add hids ⟨rfl, hsized, ?_, .refl _, ?_, ?_⟩ hgrows hsame ?_ (List.Subset.refl _) rfl
        h.known.answers rfl rfl fun _ hload => absurd hload List.not_mem_nil
      · simp [hfits, Call.undispatched, World.queued]
      · simp [hfits, Call.rejected, World.refused]
      · simp [hfits, Call.unsent, Call.unreceived]
      · intro c hc
        rw [List.mem_singleton.mp hc]
        exact ⟨List.mem_append_right _ List.mem_cons_self, hfits⟩
    · have hfits : fits config task = true := by
        rw [fits, hsize]
        simpa using hlt
      rw [if_neg hlt]
      refine h.add hids ⟨rfl, hsized, ?_, .refl _, ?_, ?_⟩ hgrows hsame ?_ (List.Subset.refl _) rfl
        h.known.answers rfl rfl fun _ hload => absurd hload List.not_mem_nil
      · simp [hfits, Call.undispatched, World.queued]
      · simp [hfits, Call.rejected, World.refused]
      · simp [hfits, Call.unsent, Call.unreceived]
      · intro c hc
        rw [List.mem_singleton.mp hc]
        trivial

open Classical in
theorem Inv.load (h : Inv config events s) (hrun : Runs.run (step config) start events = some s)
    {i : ℕ} {device : Option Device} {transferMs : List ℚ}
    (hstep : step config s (.load i device transferMs) = some s') :
    Inv config (events ++ [.load i device transferMs]) s' := by
  rw [step] at hstep
  rcases htask : s.world.orderedTasks[i]? with - | task
  · rw [htask] at hstep
    cases hstep
  · rw [htask] at hstep
    dsimp only at hstep
    split_ifs at hstep with hleast
    obtain rfl := Option.some.inj hstep
    obtain ⟨before, after, hqueue, herase, -⟩ := exists_split_of_getElem? htask
    refine h.add (h.ids_concat _) ⟨(List.append_nil _).symm, fun _ ht => absurd ht List.not_mem_nil,
      ?_, .refl _, .refl _, ?_⟩ ⟨List.Subset.refl _, List.Subset.refl _, List.Subset.refl _,
      List.Subset.refl _⟩ (fun uid => ⟨rfl, rfl⟩) ?_ (List.Subset.refl _) rfl h.known.answers rfl rfl
      ?_
    · rw [herase]
      refine List.perm_iff_count.mpr fun t => ?_
      simp only [Call.undispatched, World.queued, hqueue, List.flatMap_singleton, List.filter_nil,
        List.flatMap_nil, List.nil_append, List.count_append, List.count_cons, List.count_nil]
      omega
    · simp [Call.unsent, Call.unreceived]
    · intro c hc
      rw [List.mem_singleton.mp hc]
      trivial
    · intro load hload
      obtain rfl := List.mem_singleton.mp hload
      exact ⟨events, i, device, transferMs, [], s, rfl, hrun, htask, hleast, rfl⟩

theorem Inv.answer (h : Inv config events s) {i : ℕ} {answer : Answer V ε}
    (hstep : step config s (.answer i answer) = some s') :
    Inv config (events ++ [.answer i answer]) s' := by
  rw [step] at hstep
  rcases hload : s.world.unanswered[i]? with - | load
  · rw [hload] at hstep
    cases hstep
  · rw [hload] at hstep
    obtain rfl := Option.some.inj hstep
    obtain ⟨before, after, hunanswered, herase, -⟩ := exists_split_of_getElem? hload
    obtain ⟨hstored, hmem⟩ := h.known.unanswered load (List.mem_of_getElem? hload)
    refine h.add (h.ids_concat _) ⟨(List.append_nil _).symm, fun _ ht => absurd ht List.not_mem_nil,
      .refl _, List.Perm.append_left _ ?_, .refl _, rfl⟩ ⟨List.Subset.refl _, List.Subset.refl _,
      List.Subset.refl _, List.subset_append_left _ _⟩ (fun uid => ⟨rfl, rfl⟩) ?_
      List.eraseIdx_subset rfl ?_ rfl rfl fun _ hload => absurd hload List.not_mem_nil
    · rw [herase]
      simp only [Call.delivered, World.loaded, hunanswered, List.flatMap_singleton,
        List.flatMap_nil, List.nil_append, List.map_append, List.map_cons, List.append_assoc,
        List.cons_append]
      exact List.perm_middle.symm
    · intro c hc
      rw [List.mem_singleton.mp hc]
      exact ⟨load, List.mem_append_right _ List.mem_cons_self, rfl, hstored.same ⟨rfl, rfl⟩⟩
    · intro a ha
      rcases List.mem_append.mp ha with ha | ha
      · exact h.known.answers a ha
      · rw [List.mem_singleton.mp ha]
        exact hmem

/-- The thread, and what shuts it down, move tasks from one queue to the other. -/
theorem Inv.thread (h : Inv config events s) {submittedTasks : List (Option (Task V))}
    {thread : Thread V} {orderedTasks : List (Task V)}
    (hqueued : (submittedTasks.reduceOption ++ (thread.held ++ orderedTasks)).Perm
      s.world.queued) (e : Event V ε) :
    Inv config (events ++ [e])
      { s with world := { s.world with submittedTasks, thread, orderedTasks } } := by
  have hinv : Inv config (events ++ [e])
      ⟨{ s.world with submittedTasks, thread, orderedTasks }, s.calls ++ []⟩ := h.add (h.ids_concat e)
    ⟨(List.append_nil _).symm, fun _ ht => absurd ht List.not_mem_nil, hqueued.append_right _,
      .refl _, .refl _, rfl⟩ ⟨List.Subset.refl _, List.Subset.refl _, List.Subset.refl _,
      List.Subset.refl _⟩ (fun uid => ⟨rfl, rfl⟩) (fun _ hc => absurd hc List.not_mem_nil)
    (List.Subset.refl _) rfl h.known.answers rfl rfl fun _ hload => absurd hload List.not_mem_nil
  rwa [List.append_nil] at hinv

theorem Inv.step (h : Inv config events s) (hrun : Runs.run (step config) start events = some s)
    (hids : (uidsOf (events ++ [e])).Nodup) (hstep : step config s e = some s') :
    Inv config (events ++ [e]) s' := by
  cases e with
  | submitTask uid priority timeSubmitted args => exact h.submitTask hstep
  | load i device transferMs => exact h.load hrun hstep
  | answer i answer => exact h.answer hstep
  | step i =>
    rw [TaskPoolCalls.step] at hstep
    rcases hcall : s.calls[i]? with - | c
    · rw [hcall] at hstep
      cases hstep
    · rw [hcall] at hstep
      obtain ⟨⟨w', c'⟩, hadvance, rfl⟩ := Option.map_eq_some_iff.mp hstep
      obtain ⟨before, after, hcalls, -, hset⟩ := exists_split_of_getElem? hcall
      have hfine : c.Fine config s.world := h.known.calls c (List.mem_of_getElem? hcall)
      have hgoes := goes_of_advance hfine hadvance
      have hs : s = ⟨s.world, before ++ c :: after⟩ := by rw [← hcalls]
      have hnodup := hids.sublist (h.ids_concat _)
      have hplaced := hs ▸ h.placed
      have hbalanced := hgoes.balanced hfine
      show Inv config _ ⟨w', s.calls.set i c'⟩
      rw [hset]
      refine ⟨hplaced.balanced hbalanced, (hs ▸ h.known).goes hplaced hnodup hgoes, ?_, ?_⟩
      · rw [hbalanced.submitted, List.append_nil]
        exact h.ids_concat _
      · refine fun load hload => (h.taken load ?_).concat _
        rw [hcalls, List.flatMap_append, List.flatMap_cons]
        rcases hload with hload | hload
        · rw [List.flatMap_append, List.flatMap_cons] at hload
          refine .inl (List.mem_append.mpr ((List.mem_append.mp hload).imp_right fun hload => ?_))
          exact List.mem_append.mpr ((List.mem_append.mp hload).imp_left (hgoes.call_loads ·))
        · rcases hgoes.loads.1 load hload with hload | rfl
          · exact .inr hload
          · exact .inl (List.mem_append_right _ List.mem_cons_self)
  | get =>
    rw [TaskPoolCalls.step] at hstep
    split at hstep
    · rename_i task submittedTasks hthread hqueue
      obtain rfl := Option.some.inj hstep
      refine h.thread ?_ _
      rw [World.queued, hthread, hqueue]
      exact List.perm_middle
    · rename_i submittedTasks hthread hqueue
      obtain rfl := Option.some.inj hstep
      refine h.thread ?_ _
      rw [World.queued, hthread, hqueue]
      exact .refl _
    · cases hstep
  | put =>
    rw [TaskPoolCalls.step] at hstep
    split at hstep
    · rename_i task hthread
      obtain rfl := Option.some.inj hstep
      refine h.thread ?_ _
      rw [World.queued, hthread]
      exact List.Perm.append_left _ (List.perm_append_singleton _ _)
    · cases hstep
  | shutdown =>
    obtain rfl := Option.some.inj hstep
    refine h.thread ?_ _
    rw [World.queued, List.reduceOption_append]
    simp

theorem run_inv (hids : (uidsOf events).Nodup)
    (hrun : Runs.run (TaskPoolCalls.step config) start events = some s) : Inv config events s := by
  have hinv := Runs.run_invariant (fun events s => (uidsOf events).Nodup →
    Runs.run (TaskPoolCalls.step config) start events = some s ∧ Inv config events s)
    (fun _ => ⟨rfl, inv_start⟩) ?_ hrun
  · exact (hinv hids).2
  · intro events s' e s'' hs' hstep hids
    have hbefore : (uidsOf events).Nodup := by
      refine hids.sublist ?_
      unfold uidsOf
      rw [List.filterMap_append]
      exact List.sublist_append_left _ _
    obtain ⟨hrun, hinv⟩ := hs' hbefore
    exact ⟨Runs.run_concat_eq_some.mpr ⟨s', hrun, hstep⟩, hinv.step hrun hids hstep⟩

/-! ### What it comes to -/

/-- The call is a `submit_task` or a `load_batch_to_runtime`. -/
def Call.entering : Call V ε → Bool
  | .answering _ _ => false
  | .popping _ _ => false
  | .resolving _ _ => false
  | .done => false
  | _ => true

structure Drained (s : State V ε) : Prop where
  submittedTasks : ∀ task, some task ∉ s.world.submittedTasks
  thread : s.world.thread.held = []
  orderedTasks : s.world.orderedTasks = []
  calls : ∀ c ∈ s.calls, c.undispatched = []

structure Conserves (config : Config) (events : List (Event V ε)) (s : State V ε) : Prop where
  /-- No task is dispatched twice, or without being submitted and within `max_batch_size`. -/
  once : (s.world.dispatched.map Task.uid).Nodup
  fitting : ∀ task ∈ s.world.dispatched, task ∈ s.world.submitted ∧ fits config task = true
  drained : Drained s → ∀ task ∈ s.world.submitted, fits config task = true →
    task ∈ s.world.dispatched
  least : ∀ load ∈ s.world.loads, load.task ∈ s.world.dispatched ∧ Taken config events load
  resolvedOnce : (s.world.futures.map Prod.fst).Nodup
  /-- With the rejection of its own task, or the answer to the load of its own task. -/
  own : ∀ f ∈ s.world.futures, ∃ task ∈ s.world.submitted, task.uid = f.1 ∧
    (fits config task = false ∧ f.2 = .tooLarge config.maxBatchSize ∨
      fits config task = true ∧ ∃ load ∈ s.world.loads, ∃ answer, load.task = task ∧
        (load, answer) ∈ s.world.answers ∧
        f.2 = answer.reply config.trackTransferTiming (some load.timing))
  rejected : ∀ task ∈ s.world.submitted, fits config task = false →
    task.uid ∉ s.world.dispatched.map Task.uid ∧
      (.rejecting task ∉ s.calls → (task.uid, .tooLarge config.maxBatchSize) ∈ s.world.futures)
  /-- Who is dispatched, answered and through with the answer is resolved. -/
  resolved : Drained s → s.world.unanswered = [] → (∀ c ∈ s.calls, c = .done) →
    ∀ task ∈ s.world.submitted, task.uid ∈ s.world.futures.map Prod.fst
  empty : (∀ c ∈ s.calls, c.entering = false) →
    (s.world.empty = true ↔ ∀ task ∈ s.world.submitted, fits config task = true →
      task ∈ s.world.dispatched)
  errors : s.world.errors = []

theorem Placed.count_futures (h : Placed config s) (uid : ℕ) :
    (s.world.futures.map Prod.fst).count uid +
      (((s.calls.flatMap Call.rejected).map Task.uid).count uid +
        ((s.calls.flatMap Call.delivered).count uid +
          ((s.world.unanswered.map fun load => load.task.uid).count uid +
            (((s.calls.flatMap Call.undispatched).map Task.uid).count uid +
              (s.world.queued.map Task.uid).count uid)))) =
      (s.world.submitted.map Task.uid).count uid := by
  have haccepted := (h.accepted.map Task.uid).count_eq uid
  have hdelivered := h.delivered.count_eq uid
  have hrejected := h.rejected.count_eq uid
  have hsubmitted := ((List.filter_append_perm (fits config) s.world.submitted).map
    Task.uid).count_eq uid
  have hfutures := ((List.filter_append_perm (fun f : ℕ × Reply V ε => f.2.rejects)
    s.world.futures).map Prod.fst).count_eq uid
  simp only [World.loaded, World.refused, List.map_append, List.count_append] at *
  omega

theorem Inv.fitting (h : Inv config events s) {task : Task V} (htask : task ∈ s.world.dispatched) :
    task ∈ s.world.submitted ∧ fits config task = true :=
  List.mem_filter.mp (h.placed.accepted.symm.subset
    (List.mem_append_right _ (List.mem_append_right _ htask)))

theorem Inv.eq_of_uid (h : Inv config events s) (hids : (uidsOf events).Nodup) {task task' : Task V}
    (htask : task ∈ s.world.submitted) (htask' : task' ∈ s.world.submitted)
    (heq : task.uid = task'.uid) : task = task' :=
  List.inj_on_of_nodup_map (hids.sublist h.ids) htask htask' heq

theorem Inv.own (h : Inv config events s) {f : ℕ × Reply V ε} (hf : f ∈ s.world.futures) :
    ∃ task ∈ s.world.submitted, task.uid = f.1 ∧
      (fits config task = false ∧ f.2 = .tooLarge config.maxBatchSize ∨
        fits config task = true ∧ ∃ load ∈ s.world.loads, ∃ answer, load.task = task ∧
          (load, answer) ∈ s.world.answers ∧
          f.2 = answer.reply config.trackTransferTiming (some load.timing)) := by
  rcases h.known.futures f hf with ⟨task, hmem, huid, hfits, hreply⟩ | ⟨load, answer, hanswered⟩
  · exact ⟨task, hmem, huid, .inl ⟨hfits, hreply⟩⟩
  · have hload := h.known.answers _ hanswered.mem
    obtain ⟨hmem, hfits⟩ := h.fitting (h.known.loads load hload)
    exact ⟨load.task, hmem, hanswered.uid,
      .inr ⟨hfits, load, hload, answer, rfl, hanswered.mem, hanswered.reply⟩⟩

theorem Inv.rejected (h : Inv config events s) (hids : (uidsOf events).Nodup) {task : Task V}
    (htask : task ∈ s.world.submitted) (hfits : fits config task = false) :
    task.uid ∉ s.world.dispatched.map Task.uid ∧
      (.rejecting task ∉ s.calls →
        (task.uid, .tooLarge config.maxBatchSize) ∈ s.world.futures) := by
  constructor
  · intro hdispatched
    obtain ⟨task', htask', heq⟩ := List.mem_map.mp hdispatched
    obtain ⟨hmem, hfits'⟩ := h.fitting htask'
    rw [h.eq_of_uid hids hmem htask heq, hfits] at hfits'
    cases hfits'
  · intro hover
    have hplace : task.uid ∈
        (s.world.submitted.filter fun task => !fits config task).map Task.uid :=
      List.mem_map_of_mem (List.mem_filter.mpr ⟨htask, by rw [hfits]; rfl⟩)
    rcases List.mem_append.mp (h.placed.rejected.subset hplace) with hcall | hrefused
    · obtain ⟨task', htask', heq⟩ := List.mem_map.mp hcall
      obtain ⟨c, hc, hrejected⟩ := List.mem_flatMap.mp htask'
      have hfine := h.known.calls c hc
      cases c with
      | rejecting task =>
        obtain rfl := List.mem_singleton.mp hrejected
        rw [h.eq_of_uid hids hfine.1 htask heq] at hc
        exact absurd hc hover
      | _ => exact absurd hrejected List.not_mem_nil
    · obtain ⟨f, hf, heq⟩ := List.mem_map.mp hrefused
      obtain ⟨hmem, hrejects⟩ := List.mem_filter.mp hf
      rcases h.known.futures f hmem with ⟨-, -, -, -, hreply⟩ | ⟨load, answer, hanswered⟩
      · rw [← heq, ← hreply]
        exact hmem
      · rw [hanswered.reply, Answer.rejects_reply] at hrejects
        cases hrejects

theorem Inv.empty_iff (h : Inv config events s) (hids : (uidsOf events).Nodup)
    (hcalls : ∀ c ∈ s.calls, c.entering = false) :
    s.world.empty = true ↔ ∀ task ∈ s.world.submitted, fits config task = true →
      task ∈ s.world.dispatched := by
  have hunsent : s.calls.countP Call.unsent = 0 := by
    refine List.countP_eq_zero.mpr fun c hc => ?_
    have hentering := hcalls c hc
    cases c <;> simp_all [Call.entering, Call.unsent]
  have hunreceived : s.calls.countP Call.unreceived = 0 := by
    refine List.countP_eq_zero.mpr fun c hc => ?_
    have hentering := hcalls c hc
    cases c <;> simp_all [Call.entering, Call.unreceived]
  have hpipe := h.placed.pipe
  rw [hunsent, hunreceived, Nat.add_zero, Nat.add_zero] at hpipe
  rw [World.empty, decide_eq_true_iff]
  constructor
  · intro hempty task htask hfits
    have hlength := h.placed.accepted.length_eq
    have hmem := h.placed.accepted.subset (List.mem_filter.mpr ⟨htask, hfits⟩)
    simp only [List.length_append] at hlength
    have hundispatched := List.length_eq_zero_iff.mp
      (show (s.calls.flatMap Call.undispatched).length = 0 by omega)
    have hqueued := List.length_eq_zero_iff.mp (show s.world.queued.length = 0 by omega)
    rwa [hundispatched, hqueued] at hmem
  · intro hall
    have hnodup : (s.world.submitted.filter (fits config)).Nodup :=
      (List.Nodup.of_map Task.uid (hids.sublist h.ids)).filter _
    have hsub : s.world.submitted.filter (fits config) ⊆ s.world.dispatched := by
      intro task htask
      obtain ⟨hmem, hfits⟩ := List.mem_filter.mp htask
      exact hall task hmem hfits
    have hle := (List.subperm_of_subset hnodup hsub).length_le
    omega

theorem Drained.queued (h : Drained s) : s.world.queued = [] := by
  have hreduce : s.world.submittedTasks.reduceOption = [] :=
    List.eq_nil_iff_forall_not_mem.mpr fun task hmem =>
      h.submittedTasks task (List.reduceOption_mem_iff.mp hmem)
  rw [World.queued, hreduce, h.thread, h.orderedTasks]
  rfl

theorem Drained.undispatched (h : Drained s) : s.calls.flatMap Call.undispatched = [] :=
  List.flatMap_eq_nil_iff.mpr h.calls

/-- Over every interleaving of the calls, for futures that are told apart. -/
theorem pool_conserves (config : Config) (events : List (Event V ε))
    (hids : (uidsOf events).Nodup) (s : State V ε)
    (hrun : Runs.run (step config) start events = some s) : Conserves config events s := by
  have h := run_inv hids hrun
  have hsubmitted := hids.sublist h.ids
  have haccepted : ((s.world.submitted.filter (fits config)).map Task.uid).Nodup :=
    hsubmitted.sublist (List.filter_sublist.map _)
  have hplaced := (h.placed.accepted.map Task.uid).nodup_iff.mp haccepted
  rw [List.map_append, List.map_append] at hplaced
  exact
    { once := (List.nodup_append.mp (List.nodup_append.mp hplaced).2.1).2.1
      fitting := fun task htask => h.fitting htask
      drained := by
        intro hdrained task htask hfits
        have hmem := h.placed.accepted.subset (List.mem_filter.mpr ⟨htask, hfits⟩)
        rwa [hdrained.undispatched, hdrained.queued] at hmem
      least := fun load hload => ⟨h.known.loads load hload, h.taken load (.inr hload)⟩
      resolvedOnce := by
        refine List.nodup_iff_count_le_one.mpr fun uid => ?_
        have hcount := h.placed.count_futures uid
        have hone := List.nodup_iff_count_le_one.mp hsubmitted uid
        omega
      own := fun f hf => h.own hf
      rejected := fun task htask hfits => h.rejected hids htask hfits
      resolved := by
        intro hdrained hunanswered hdone task htask
        have hcount := h.placed.count_futures task.uid
        have hpos := List.count_pos_iff.mpr (List.mem_map_of_mem (f := Task.uid) htask)
        have hrejected : s.calls.flatMap Call.rejected = [] :=
          List.flatMap_eq_nil_iff.mpr fun c hc => by rw [hdone c hc]; rfl
        have hdelivered : s.calls.flatMap Call.delivered = [] :=
          List.flatMap_eq_nil_iff.mpr fun c hc => by rw [hdone c hc]; rfl
        rw [hrejected, hdelivered, hunanswered, hdrained.undispatched, hdrained.queued] at hcount
        simp only [List.map_nil, List.count_nil, Nat.add_zero] at hcount
        exact List.count_pos_iff.mp (by omega)
      empty := fun hcalls => h.empty_iff hids hcalls
      errors := h.known.errors }

/-- A task is loaded before its message is in the pipe, while one that is too large is rejected. -/
theorem pool_conserves_overlapping :
    let config : Config := ⟨4, none, true⟩
    let tensor (shape : List ℕ) : Value Unit := .tensor ⟨.cpu, shape, 4, ()⟩
    let events : List (Event Unit Unit) :=
      [.submitTask 0 1 0 [tensor [1, 2]], .submitTask 1 0 1 [tensor [3, 3]], .step 0, .get, .put,
        .load 0 (some (.cuda 0)) [5], .step 2, .step 2, .step 0, .step 2, .step 2,
        .answer 0 (.outputs [] 1), .step 1, .step 3, .step 3, .step 3]
    ∃ s, Runs.run (step config) start events = some s ∧
      s.world.futures.map Prod.fst = [1, 0] ∧ (s.world.futures.map Prod.fst).Nodup ∧
      ∀ f ∈ s.world.futures, ∃ task ∈ s.world.submitted, task.uid = f.1 := by
  intro config tensor events
  have hfutures : (Runs.run (step config) start events).map
      (fun s => s.world.futures.map Prod.fst) = some [1, 0] := by decide +kernel
  obtain ⟨s, hrun, hfutures⟩ := Option.map_eq_some_iff.mp hfutures
  have h := pool_conserves config events (by decide) s hrun
  refine ⟨s, hrun, hfutures, h.resolvedOnce, fun f hf => ?_⟩
  obtain ⟨task, htask, huid, -⟩ := h.own f hf
  exact ⟨task, htask, huid⟩

end BloomBee.TaskPoolCalls
