import Conductor.Proofs.Goal.Errands

/-!
# Results put together

A goal that asks for several capabilities is split into one subtask for each of them. The results of the
subtasks are kept under their names, and put together in order: a mapping gives its entries, and any other
result goes under the name of its subtask (`Desk.contribution`).

**Theorem (`gathered`).** When all subtasks have been handed out and their results put together, the
execution holds an agent and a result under the name of every subtask, and the whole holds everything
that a result contributes. Under a name or key that comes more than once it is the last that is held.
Different capabilities give different names (`partName_injective`), so nothing is lost then.
-/

namespace Conductor

open Outline (say plain call emit)

namespace Pursuit

variable {s t : Store}

/-! ## Splitting -/

/-- The name of the part of a goal that a capability is for. -/
def Desk.partName (name capability : String) : String := s!"{name}_{capability}"

theorem Desk.partName_injective (name : String) : Function.Injective (Desk.partName name) := by
  intro c c' h
  have hlist : (name ++ "_" ++ c).toList = (name ++ "_" ++ c').toList := congrArg String.toList h
  simp only [String.toList_append] at hlist
  exact String.toList_inj.1 (List.append_cancel_left hlist)

/-- Subtasks are there, one for each capability and with its name. -/
def Split (name : String) (caps : List String) (gs : List (Ref .goal)) (s : Store) : Prop :=
  List.Forall₂ (fun c q => s.Named q (Desk.partName name c)) caps gs

theorem Split.names {name : String} {caps : List String} {gs : List (Ref .goal)}
    (h : Split name caps gs s) : Desk.namesOf s gs = caps.map (Desk.partName name) := by
  induction h with
  | nil => rfl
  | cons hq _ ih => exact congrArg₂ List.cons hq.2 ih

theorem Split.there {name : String} {caps : List String} {gs : List (Ref .goal)}
    (h : Split name caps gs s) : ∀ q ∈ gs, q.index < s.goals.size := by
  induction h with
  | nil => nofun
  | cons hq _ ih => exact List.forall_mem_cons.2 ⟨hq.1, ih⟩

theorem spared_split (name : String) (caps : List String) (gs : List (Ref .goal)) :
    Spared ∅ ∅ (Split name caps gs) := by
  by_cases hlength : caps.length = gs.length
  · have heq : Split name caps gs = fun s => ∀ p : {p // p ∈ caps.zip gs},
        s.Named p.1.2 (Desk.partName name p.1.1) := by
      funext s
      refine propext (List.forall₂_iff_zip.trans ⟨fun h p => h.2 p.2, fun h => ⟨hlength, ?_⟩⟩)
      exact fun hp => h ⟨_, hp⟩
    rw [heq]
    exact Spared.forall fun p => spared_named _ _
  · have heq : Split name caps gs = fun _ => False := by
      funext s
      exact propext ⟨fun h => hlength h.length_eq, False.elim⟩
    rw [heq]
    constructor <;> intros <;> assumption

section Gives

open Routine

variable {name : String} {g : Ref .goal} {caps : List String}

theorem named_alloc (s : Store) (x : Goal) :
    (s.alloc (t := .goal) x).2.Named (s.alloc (t := .goal) x).1 x.name := by
  refine ⟨(Nat.lt_succ_self _).trans_eq (Array.size_push _).symm, ?_⟩
  show ((s.goals.push x).getD s.goals.size default).name = x.name
  simp [Array.getD]

theorem subtask_gives (hg : s.Named g name) (input : Entries Value) (capability : String) :
    (Desk.subtask g input capability).Gives
      (fun q t => t.Named q (Desk.partName name capability) ∧ Spares ∅ s t) s := by
  refine gives_spares ?_ fun hP => subtask_keeps hP g input capability
  rw [← hg.2]
  exact named_alloc _ _

theorem collect_gives (input : Entries Value) : ∀ {caps : List String} {s : Store}, s.Named g name →
    (Routine.collect (Desk.subtask g input) caps).Gives (fun gs t => Split name caps gs t ∧ Spares ∅ s t) s
  | [], s, _ => ⟨.nil, Spares.refl ∅ s⟩
  | c :: caps, s, hg => by
    refine Gives.bind (subtask_gives hg input c) ?_
    rintro q t ⟨hq, hst⟩
    have hgt : t.Named g name := hst (spared_named g name) (Set.disjoint_empty _) hg
    refine Gives.bind (collect_gives input hgt) ?_
    rintro gs u ⟨hgs, htu⟩
    exact ⟨.cons (htu (spared_named q _) (Set.disjoint_empty _) hq) hgs, hst.trans htu⟩

theorem decompose_gives (hg : s.Named g name) (hc : Desk.capabilitiesOf s g = some caps)
    (hmany : 2 ≤ caps.length) (input : Entries Value) (strategy : Strategy) :
    (Desk.decompose g input strategy).Gives
      (fun gs t => Split name caps gs t ∧ Spares ∅ s t) s := by
  refine Gives.bind (r := read _) (P := fun cs t => some caps = cs ∧ s = t) ⟨hc.symm, rfl⟩ ?_
  rintro _ _ ⟨rfl, rfl⟩
  have hempty : caps.isEmpty = false := by
    cases caps with
    | nil => cases hmany
    | cons => rfl
  have hwhole : (caps.isEmpty || (strategy == .auto && decide (caps.length ≤ 1))) = false := by
    rw [hempty, decide_eq_false (Nat.not_le.2 hmany), Bool.and_false]
    rfl
  show (ite _ _ _ : Routine _).Gives _ s
  rw [Option.getD_some, hwhole]
  exact collect_gives input hg

/-- A goal that asks for several capabilities is split into parts, one for each of them. -/
theorem plan_gives (δ : Desk) (hg : s.Named g name) (hc : Desk.capabilitiesOf s g = some caps)
    (hmany : 2 ≤ caps.length) (r : Ref .execution) (input : Entries Value) :
    (δ.plan r g input).Gives (fun gs t => Split name caps gs t ∧ Spares ∅ s t) s := by
  refine gives_spares ?_ fun hP => plan_keeps hP δ r g input
  refine Gives.bind (r := δ.analyze g) (P := fun _ t => s = t) ?_ ?_
  · unfold Desk.analyze
    split <;> rfl
  rintro analysis _ rfl
  refine Gives.bind (decompose_gives hg hc hmany input _) ?_
  rintro gs t ⟨hgs, -⟩
  have hP := spared_split name caps gs
  refine Gives.mono (Gives.keeping (Q := fun gs' _ => gs = gs') rfl) ?_
  rintro _ u ⟨rfl, hkeeps⟩
  refine hkeeps _ ?_ hgs
  exact Keeps.bind (keeps_read _) fun _ =>
    Keeps.bind (keeps_alter fun s hs => hP.updated _ r _ (Or.inr fun _ => rfl) (hP.sequence s _ hs))
      fun _ => Keeps.bind (keeps_read _) fun _ => Keeps.bind (progress_keeps hP δ _ _) fun _ =>
        show True from trivial

/-- The parts of a goal are handed out with the entries of the input. -/
theorem parts_give (δ : Desk) {v : Value} {I : Entries Value} (hg : s.Named g name)
    (hc : Desk.capabilitiesOf s g = some caps) (hmany : 2 ≤ caps.length) (hI : s.Shows v I)
    (r : Ref .execution) :
    Gives (fun x t => x.2 = I ∧ Split name caps x.1 t ∧ Spares ∅ s t)
      (do let entries ← read fun s => (s.mapping? v).getD []
          let subtasks ← δ.plan r g entries
          let known ← read fun s => (s.mapping? v).getD []
          pure (subtasks, known)) s := by
  refine Gives.bind (r := read _) (P := fun _ t => s = t) rfl ?_
  rintro entries _ rfl
  refine Gives.bind (plan_gives δ hg hc hmany r entries) ?_
  rintro gs t ⟨hgs, hst⟩
  have hknown : (t.mapping? v).getD [] = I := by
    rw [(hst.shows hI).mapping]
    rfl
  exact ⟨hknown, hgs, hst⟩

/-! ## Putting together -/

/-- What one result contributes to the whole. -/
def Desk.contribution (s : Store) (part : String × Value) : Entries Value :=
  (s.mapping? part.2).getD [part]

theorem foldl_combine (s : Store) : ∀ (parts : Entries Value) (whole : Entries Value),
    parts.foldl (Desk.combine s) whole =
      Entries.insertAll whole (parts.flatMap (Desk.contribution s))
  | [], _ => rfl
  | part :: parts, whole => by
    have hcombine : Desk.combine s whole part =
        Entries.insertAll whole (Desk.contribution s part) := by
      unfold Desk.combine Desk.contribution
      cases s.mapping? part.2 <;> rfl
    rw [List.foldl_cons, hcombine, foldl_combine s parts, List.flatMap_cons]
    exact List.foldl_append.symm

/-- Several results are put together in a new dictionary. -/
theorem aggregate_gives (names : List String) {ws : List Value} (hmany : 2 ≤ ws.length) :
    (Desk.aggregate names ws).Gives (fun v t =>
      t.Shows v (Entries.insertAll [] ((names.zip ws).flatMap (Desk.contribution s)))) s := by
  obtain ⟨w, w', ws, rfl⟩ : ∃ w w' ws', ws = w :: w' :: ws' := by
    match ws with
    | w :: w' :: ws => exact ⟨w, w', ws, rfl⟩
  rw [← foldl_combine]
  exact shows_newDict s _

end Gives

namespace Outlined

/-- The part of an attempt in which a goal is split, its subtasks are handed out, and their results are
put together. -/
def assemble (δ : Desk) (r : Ref .execution) (g : Ref .goal) (input : Value) :
    Outline (List (Ref .goal) × List Value × Value) := do
  let (subtasks, known) ← plain do
    let entries ← .read fun s => (s.mapping? input).getD []
    let subtasks ← δ.plan r g entries
    let known ← .read fun s => (s.mapping? input).getD []
    pure (subtasks, known)
  let results ← handOutAll δ r known subtasks
  let whole ← plain do
    let names ← .read fun s => Desk.namesOf s subtasks
    Desk.aggregate names results
  pure (subtasks, results, whole)

/-- What has been put together is judged. -/
theorem prepare_eq (δ : Desk) (r : Ref .execution) (g : Ref .goal) (input : Value) :
    prepare δ r g input = (do
      emit .goalStart [.goal g, .execution r]
      let (_, _, whole) ← assemble δ r g input
      let e ← Evaluation.Outlined.judge δ.evaluator g whole
      pure (whole, e)) := by
  simp only [prepare, assemble, bind_assoc, pure_bind]

end Outlined

section Gathered

variable {σ : Setup} {R : Run σ.body} {N b n t : Nat} {ds : List Deed} {e : Ref .execution}
  {x : Execution} {v whole : Value} {I : Entries Value} {name : String} {g : Ref .goal}
  {gs : List (Ref .goal)} {ws : List Value} {caps : List String}

/-- **What becomes of results.** When a goal that asks for several capabilities is split, its subtasks are
handed out and their results put together, then there is one errand for each capability, with an answer;
and the execution holds the agent and the answer of the last errand of each name, and of no others. The
whole holds the last of what answers contribute under each key. Different capabilities have different
names. -/
theorem gathered
    (h : σ.Does R N b n (Outlined.assemble σ.desk e g v) ds (some (t, .ok (gs, ws, whole))))
    (hn : Order e x v I (fun _ => name) [g] [] [] (R.store n)) (hx : Apart x v)
    (hc : Desk.capabilitiesOf (R.store n) g = some caps) (hmany : 2 ≤ caps.length)
    (hr : Respects R e x v gs ds) :
    ∃ (τs : List Errand) (k : Nat) (A B W : Entries Value),
      ds = τs.flatMap Errand.deeds ∧ τs.map Errand.goal = gs ∧ τs.length = caps.length ∧
      τs.map Errand.answer = ws.map .ok ∧
      (∀ τ ∈ τs, Deed.agentCalls τ.deeds = [τ.call R] ∧ τ.ended ≤ k) ∧ k ≤ t ∧
      (R.store t).Shows (.dict x.agents) A ∧
      A.Latest ((caps.map (Desk.partName name)).zip (τs.map fun τ => .text (τ.worker R).name)) ∧
      (R.store t).Shows (.dict x.results) B ∧ B.Latest ((caps.map (Desk.partName name)).zip ws) ∧
      (R.store t).Shows whole W ∧
      W.Latest (((caps.map (Desk.partName name)).zip ws).flatMap (Desk.contribution (R.store k))) ∧
      (caps.Nodup → A = (caps.map (Desk.partName name)).zip (τs.map fun τ => .text (τ.worker R).name) ∧
        B = (caps.map (Desk.partName name)).zip ws) := by
  obtain ⟨m, ⟨gs', known⟩, hnm, ⟨hknown, hsplit, hspares⟩, h₁⟩ :=
    h.gives_bind (parts_give σ.desk (hn.named g List.mem_cons_self) hc hmany hn.input e)
  dsimp only at hknown hsplit h₁
  subst hknown
  rcases h₁.bind with ⟨ds₁, k, ws', ds₂, h₂, h₃, rfl⟩ | ⟨_, _, _, he⟩ | ⟨-, he⟩
  · rcases h₃.bind with ⟨ds₃, u, whole', ds₄, h₄, h₅, rfl⟩ | ⟨_, _, _, he⟩ | ⟨-, he⟩
    · obtain ⟨rfl, he⟩ := h₅.done_iff
      cases he
      -- The parts keep the names that they have got.
      let nm : Ref .goal → String := fun q => ((R.store m).get q).name
      have hnames : gs.map nm = caps.map (Desk.partName name) := hsplit.names
      have horder : Order e x v known nm gs [] [] (R.store m) := by
        exact ⟨hspares.holds (Set.notMem_empty e) hn.holds, hspares.shows hn.input,
          fun q hq => ⟨hsplit.there q hq, rfl⟩, hspares.shows hn.agents, hspares.shows hn.results⟩
      obtain ⟨τs, hτs, rfl, hend⟩ := handed_out_all hx (fun _ hq => hq) h₂ horder
        (hr.mono fun d hd => List.mem_append_left _ hd)
      obtain ⟨hlength, hanswers⟩ := hτs.completed rfl
      have hgoals : τs.map Errand.goal = gs :=
        hτs.goals.eq_of_length (by rw [List.length_map, hlength])
      have hcount : τs.length = caps.length := hlength.trans hsplit.length_eq.symm
      have hws : ws.length = caps.length := by
        have hcounts := congrArg List.length hanswers
        rw [List.length_map, List.length_map] at hcounts
        rw [← hcounts, hcount]
      have hworkers : workers R nm τs =
          (caps.map (Desk.partName name)).zip (τs.map fun τ => .text (τ.worker R).name) := by
        rw [← hnames, ← hgoals, List.map_map, List.zip_map']
        rfl
      rw [hworkers, answers_eq_zip hanswers, hgoals, hnames] at hend
      have hrow : Desk.namesOf (R.store k) gs = caps.map (Desk.partName name) := by
        rw [← hnames]
        exact List.map_congr_left fun q hq => (hend.named q hq).2
      have hwhole : Routine.Gives (fun w t => t.Shows w (Entries.insertAll []
          (((caps.map (Desk.partName name)).zip ws).flatMap (Desk.contribution (R.store k)))) ∧
            Spares ∅ (R.store k) t)
          (do let names ← .read fun s => Desk.namesOf s gs
              Desk.aggregate names ws) (R.store k) := by
        refine Routine.Gives.bind (r := .read _)
          (P := fun names s => caps.map (Desk.partName name) = names ∧ R.store k = s) ⟨hrow.symm, rfl⟩ ?_
        rintro _ _ ⟨rfl, rfl⟩
        exact gives_spares (aggregate_gives _ (by rw [hws]; exact hmany))
          fun hP => aggregate_keeps hP _ _
      obtain ⟨rfl, hgives⟩ := h₄.gives hwhole
      obtain ⟨hku, _, heq, hshows, hkept⟩ := hgives _ _ rfl
      cases heq
      have hcalled : ∀ τ ∈ τs, Deed.agentCalls τ.deeds = [τ.call R] ∧ τ.ended ≤ k := fun τ hτ => by
        have ha : τ.answer ∈ ws.map Except.ok := hanswers ▸ List.mem_map_of_mem hτ
        obtain ⟨w, -, hw⟩ := List.mem_map.1 ha
        exact ⟨hτs.called hτ hw.symm, hτs.ended τ hτ⟩
      refine ⟨τs, k, _, _, _, List.append_nil _, hgoals, hcount, hanswers, hcalled, hku, hkept.shows hend.agents,
        Entries.latest_insertAll _, hkept.shows hend.results, Entries.latest_insertAll _, hshows,
        Entries.latest_insertAll _, fun hdistinct => ?_⟩
      have hkeys : ∀ {ys : List Value}, ys.length = caps.length →
          (Entries.keys ((caps.map (Desk.partName name)).zip ys)).Nodup := fun hys => by
        rw [Entries.keys, List.map_fst_zip (by rw [List.length_map, hys])]
        exact hdistinct.map (Desk.partName_injective name)
      exact ⟨(Entries.latest_insertAll _).distinct (hkeys (by rw [List.length_map, hcount])),
        (Entries.latest_insertAll _).distinct (hkeys hws)⟩
    · cases he
    · cases he
  · cases he
  · cases he

/-! ## Parts with one name -/

/-- A worker answers with something else each time, and a closer with a mapping. -/
def sameSetup : Setup :=
  ⟨default, ⟨answering fun c r => if c = ⟨0⟩ then .int r.index else .dict ⟨3⟩, default, none, [], [],
    none⟩⟩

/-- A goal that asks for one capability twice. -/
def sameStore : Store :=
  { Store.empty with
    dicts := #[[], [], [], [("t_a", .int 7)], []]
    sequences := #[[], [.text "a", .text "a", .text "b"]]
    agents := #[⟨"worker", ⟨0⟩, ["a"], .null⟩, ⟨"closer", ⟨1⟩, ["b"], .null⟩]
    agentRegistry := [("worker", ⟨0⟩), ("closer", ⟨1⟩)]
    goals := #[⟨"t", "", "", ⟨2⟩, none, some ⟨1⟩, ⟨4⟩, none⟩]
    executions := #[⟨"", none, 1, 0, none, .dict ⟨2⟩, ⟨1⟩, ⟨0⟩, ⟨0⟩, ⟨0⟩, .running⟩] }

def sameExecution : Execution := ⟨"", none, 1, 0, none, .dict ⟨2⟩, ⟨1⟩, ⟨0⟩, default, ⟨0⟩, .running⟩

def sameParts : Outline (List (Ref .goal) × List Value × Value) :=
  Outlined.assemble sameSetup.desk ⟨0⟩ ⟨0⟩ (.dict ⟨2⟩)

def sameRun : Run sameSetup.body :=
  .launched _ sameStore ((sameParts >>= fun x => pure x.2.2).erase sameSetup.desk.call)

theorem sameRun_account : ∃ ds, sameSetup.Does sameRun 100 0 1 sameParts ds
      (some (99, .ok ([⟨1⟩, ⟨2⟩, ⟨3⟩], [.int 0, .int 1, .dict ⟨3⟩], .dict ⟨17⟩))) ∧
    (sameRun.store 99).get (⟨0⟩ : Ref .dict) = [("t_a", .text "worker"), ("t_b", .text "closer")] ∧
    (sameRun.store 99).get (⟨1⟩ : Ref .dict) = [("t_a", .int 1), ("t_b", .dict ⟨3⟩)] ∧
    (sameRun.store 99).get (⟨17⟩ : Ref .dict) = [("t_a", .int 7)] ∧
    Desk.namesOf (sameRun.store 99) [⟨1⟩, ⟨2⟩, ⟨3⟩] = ["t_a", "t_a", "t_b"] := by
  obtain ⟨ds, t, o, h⟩ := Run.launched_account sameSetup.desk.call (Setup.erase_plan sameSetup)
    (x := sameParts >>= fun x => pure x.2.2) (N := 100) (s := sameStore) rfl (by decide)
    (by decide +kernel)
  let lead := sameParts.leadsBy sameSetup.desk.call sameSetup.plan
    (Outline.leads sameSetup.desk.call sameSetup.plan 4) 1 (sameRun.store 1)
  have hend : lead.map (fun y => (y.1, y.2.1.toOption)) =
      some (99, some ([⟨1⟩, ⟨2⟩, ⟨3⟩], [.int 0, .int 1, .dict ⟨3⟩], .dict ⟨17⟩)) := by decide +kernel
  have hdicts : lead.map (fun y => [0, 1, 17].map fun i => y.2.2.get (⟨i⟩ : Ref .dict)) =
      some [[("t_a", .text "worker"), ("t_b", .text "closer")], [("t_a", .int 1), ("t_b", .dict ⟨3⟩)],
        [("t_a", .int 7)]] := by decide +kernel
  have hnames : lead.map (fun y => Desk.namesOf y.2.2 [⟨1⟩, ⟨2⟩, ⟨3⟩]) =
      some ["t_a", "t_a", "t_b"] := by decide +kernel
  obtain ⟨⟨t', o', u⟩, hy, hdata⟩ := Option.map_eq_some_iff.1 hend
  rw [hy] at hdicts hnames
  simp only [Option.map_some, Option.some.injEq] at hnames
  obtain ⟨hagents, hresults, hwhole, -⟩ : u.get (⟨0⟩ : Ref .dict) = _ ∧ u.get (⟨1⟩ : Ref .dict) = _ ∧
      u.get (⟨17⟩ : Ref .dict) = _ ∧ True := by simpa using hdicts
  cases o' with
  | error f => cases hdata
  | ok parts =>
    cases hdata
    rcases h.bind with ⟨ds₁, m, y, ds₂, h₁, -, -⟩ | ⟨m, f, h₁, -⟩ | ⟨-, he⟩
    · obtain ⟨-, rfl, he, rfl⟩ := h₁.leadsBy (fun h hx => h.leads hx) hy
      cases he
      exact ⟨ds₁, h₁, hagents, hresults, hwhole, hnames⟩
    · obtain ⟨-, -, he, -⟩ := h₁.leadsBy (fun h hx => h.leads hx) hy
      cases he
    · cases he

theorem gathered_same : ∃ (ds : List Deed) (τs : List Errand) (A B W : Entries Value),
    sameSetup.Does sameRun 100 0 1 (Outlined.assemble sameSetup.desk ⟨0⟩ ⟨0⟩ (.dict ⟨2⟩)) ds
      (some (99, .ok ([⟨1⟩, ⟨2⟩, ⟨3⟩], [.int 0, .int 1, .dict ⟨3⟩], .dict ⟨17⟩))) ∧
    Order ⟨0⟩ sameExecution (.dict ⟨2⟩) [] (fun _ => "t") [⟨0⟩] [] [] (sameRun.store 1) ∧
    Apart sameExecution (.dict ⟨2⟩) ∧
    Desk.capabilitiesOf (sameRun.store 1) ⟨0⟩ = some ["a", "a", "b"] ∧ 2 ≤ ["a", "a", "b"].length ∧
    Respects sameRun ⟨0⟩ sameExecution (.dict ⟨2⟩) [⟨1⟩, ⟨2⟩, ⟨3⟩] ds ∧
    ds = τs.flatMap Errand.deeds ∧ τs.map Errand.goal = [⟨1⟩, ⟨2⟩, ⟨3⟩] ∧
    (sameRun.store 99).Shows (.dict sameExecution.agents) A ∧
    (sameRun.store 99).Shows (.dict sameExecution.results) B ∧ (sameRun.store 99).Shows (.dict ⟨17⟩) W ∧
    B.Latest [("t_a", .int 0), ("t_a", .int 1), ("t_b", .dict ⟨3⟩)] := by
  obtain ⟨ds, h, -⟩ := sameRun_account
  have hn : Order ⟨0⟩ sameExecution (.dict ⟨2⟩) [] (fun _ => "t") [⟨0⟩] [] [] (sameRun.store 1) := {
    holds := ⟨by decide, rfl, by decide, nofun⟩
    input := ⟨by decide, rfl⟩
    named := by
      intro g hg
      cases List.mem_singleton.1 hg
      exact ⟨by decide, rfl⟩
    agents := ⟨by decide, rfl⟩
    results := ⟨by decide, rfl⟩ }
  have hx : Apart sameExecution (.dict ⟨2⟩) := ⟨by decide, nofun, nofun⟩
  have hr := answering_respects (f := fun c r => if c = ⟨0⟩ then .int r.index else .dict ⟨3⟩) rfl h ⟨0⟩
    sameExecution (.dict ⟨2⟩) [⟨1⟩, ⟨2⟩, ⟨3⟩]
  obtain ⟨τs, -, A, B, W, hds, hgoals, -, -, -, -, hA, -, hB, hlatest, hW, -⟩ :=
    gathered h hn hx rfl (by decide) hr
  exact ⟨ds, τs, A, B, W, h, hn, hx, rfl, by decide, hr, hds, hgoals, hA, hB, hW, hlatest⟩

/-- A goal that asks for one capability twice has two subtasks of one name. The execution holds two
results for three subtasks, and the whole has the entry of a mapping instead of a result of that name. -/
theorem same_names_lose : ∃ ds, sameSetup.Does sameRun 100 0 1 sameParts ds
      (some (99, .ok ([⟨1⟩, ⟨2⟩, ⟨3⟩], [.int 0, .int 1, .dict ⟨3⟩], .dict ⟨17⟩))) ∧
    Desk.capabilitiesOf (sameRun.store 1) ⟨0⟩ = some ["a", "a", "b"] ∧
    Desk.namesOf (sameRun.store 99) [⟨1⟩, ⟨2⟩, ⟨3⟩] = ["t_a", "t_a", "t_b"] ∧
    ((sameRun.store 99).get sameExecution.agents).length ≠ 3 ∧
    ((sameRun.store 99).get sameExecution.results).length ≠ 3 ∧
    (∀ entry ∈ (sameRun.store 99).get sameExecution.results, entry.2 ≠ .int 0) ∧
    (sameRun.store 99).mapping? (.dict ⟨17⟩) = some [("t_a", .int 7)] := by
  obtain ⟨ds, h, hagents, hresults, hwhole, hnames⟩ := sameRun_account
  refine ⟨ds, h, rfl, hnames, ?_, ?_, ?_, congrArg some hwhole⟩
  · exact ne_of_eq_of_ne (congrArg List.length hagents) (by decide)
  · exact ne_of_eq_of_ne (congrArg List.length hresults) (by decide)
  · exact fun entry hentry => (by decide : ∀ x ∈ [("t_a", Value.int 1), ("t_b", .dict ⟨3⟩)],
      x.2 ≠ .int 0) entry (hresults ▸ hentry)

end Gathered

end Pursuit

end Conductor
