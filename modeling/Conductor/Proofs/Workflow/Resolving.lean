import Conductor.Proofs.Account.Upkeep
import Conductor.Proofs.Store.Laws
import Conductor.Proofs.Workflow.Branches
import Conductor.Proofs.Workflow.Finding

/-!
# What a task is given

A task step with an input map makes a new dictionary for its task. The sources of the map are resolved
one after another, each at its own moment: user code is called with the context, a text is a key of the
input as it is, and a path into the results begins at what the context finds for a step at that moment
(`Resolves`). What that is, only the records and forks of the run decide (`Run.Finds`).

**Theorem (`inputs_resolved`).** Whenever the task of a step with an input map is called, its input is
the dictionary with the keys of the map, in order, and with what their sources have been resolved to. It
is called unless there is a reason that can be named (`Withheld`).
-/

namespace Conductor

open Outline (plain call emit)
open Visit (Scene)
open Visit.Outlined

/-! ## Paths into results -/

namespace Path

theorem splitDots_of_notMem : ∀ {cs : List Char}, '.' ∉ cs → splitDots cs = [cs]
  | [], _ => rfl
  | c :: cs, h => by
    have hc : c ≠ '.' := fun heq => h (heq ▸ List.mem_cons_self)
    rw [splitDots, if_neg hc, splitDots_of_notMem fun hmem => h (List.mem_cons_of_mem _ hmem)]

theorem segments_of_notMem {id : String} (h : '.' ∉ id.toList) : segments id = [id] := by
  rw [segments, splitDots_of_notMem h, List.map_singleton, String.ofList_toList]

theorem segments_reference {id : String} (h : '.' ∉ id.toList) :
    segments (stepsStart ++ id) = ["steps", id] := by
  have hstart : stepsStart = "steps" ++ "." := by decide
  rw [hstart, segments_append, segments_of_notMem h]
  rfl

/-- A path into the results names a step, and may go on behind a dot. -/
theorem reference_cases {t : String} (h : isStepReference t = true) : ∃ id : String,
    '.' ∉ id.toList ∧ (t = stepsStart ++ id ∨ ∃ p, t = stepsStart ++ id ++ "." ++ p) := by
  obtain ⟨rest, hrest⟩ : ∃ rest, t.toList = stepsStart.toList ++ rest := by
    refine ⟨t.toList.drop stepsStart.length, ?_⟩
    rw [← beq_iff_eq.1 h, List.take_append_drop]
  have hsplit := (List.takeWhile_append_dropWhile (p := (· != '.')) (l := rest)).symm
  refine ⟨String.ofList (rest.takeWhile (· != '.')), ?_, ?_⟩
  · rw [String.toList_ofList]
    exact fun hmem => by simpa using List.mem_takeWhile_imp hmem
  · cases htail : rest.dropWhile (· != '.') with
    | nil =>
      refine Or.inl (String.toList_inj.1 ?_)
      rw [hrest, String.toList_append, String.toList_ofList]
      conv_lhs => rw [hsplit, htail, List.append_nil]
    | cons c p =>
      have hc : c = '.' := by
        have := List.head_dropWhile_not (· != '.') (l := rest) (by rw [htail]; simp)
        simpa [htail] using this
      refine Or.inr ⟨String.ofList p, String.toList_inj.1 ?_⟩
      rw [hrest]
      simp only [String.toList_append, String.toList_ofList]
      conv_lhs => rw [hsplit, htail, hc]
      simp

end Path

namespace Store

variable {s : Store} {c : Ref .context} {id : String}

/-- A path that names a step finds what the context finds for it. -/
theorem getPath_reference (hid : '.' ∉ id.toList) :
    s.getPath (.context c) (Path.stepsStart ++ id) = .ok ((s.found c id).getD .null) := by
  rw [getPath, Path.segments_reference hid]
  rfl

theorem getPath_behind (hid : '.' ∉ id.toList) (p : String) :
    s.getPath (.context c) (Path.stepsStart ++ id ++ "." ++ p) =
      s.getPath ((s.found c id).getD .null) p := by
  have h := getPath_reference (s := s) (c := c) hid
  rw [getPath] at h
  rw [getPath, Path.segments_append, follow_append, h]
  rfl

/-- What a text leads to as a source of a task's input. -/
def sourceText (s : Store) (c : Ref .context) (t : String) : Except Cause Value :=
  if Path.isStepReference t then s.getPath (.context c) t else s.lookup (s.get c).input t

end Store

/-! ## Sources -/

namespace Workflow

section Sources

variable {body : Procedure → Routine Value} (R : Run body) (c : Ref .context)

/-- A source of a task's input is resolved to a value, from one moment to another. -/
inductive Resolves : Source → Nat → List Deed → Nat → Value → Prop where
  /-- User code is called with the context. -/
  | called {f : Ref .callable} {i j : Nat} {inner : List Deed} {v : Value} :
    Resolves (.call f) i [.ask i .source f [.context c] inner (some (j, .ok v))] j v
  /-- A text is a key of the input as it is, with any dots in it. -/
  | key {t : String} {i j : Nat} {v : Value} (ht : Path.isStepReference t = false)
    (hv : (R.store i).lookup ((R.store i).get c).input t = .ok v) : Resolves (.text t) i [] j v
  /-- A step is named, and the value is what the context finds for it. -/
  | result {id : String} {i j : Nat} {r : Option Value} (hid : '.' ∉ id.toList)
    (hr : R.Finds id i c r) : Resolves (.text (Path.stepsStart ++ id)) i [] j (r.getD .null)
  /-- A path goes on in what the context finds. -/
  | path {id p : String} {i j : Nat} {r : Option Value} {v : Value} (hid : '.' ∉ id.toList)
    (hr : R.Finds id i c r) (hv : (R.store i).getPath (r.getD .null) p = .ok v) :
    Resolves (.text (Path.stepsStart ++ id ++ "." ++ p)) i [] j v

/-- Sources are resolved one after another, each for its key. -/
inductive Fills : Entries Source → Nat → List Deed → Nat → Entries Value → Prop where
  | nil {i : Nat} : Fills [] i [] i []
  | cons {key : String} {x : Source} {m : Entries Source} {i j k : Nat} {ds ds' : List Deed}
    {v : Value} {vs : Entries Value} (h : Resolves R c x i ds j v) (hij : i ≤ j)
    (h' : Fills m j ds' k vs) : Fills ((key, x) :: m) i (ds ++ ds') k ((key, v) :: vs)

/-- A source cannot be resolved from a moment on: user code fails, or a text leads to a position that
cannot be read. -/
inductive Refuses (n : Nat) (ds : List Deed) : Source → Failure → Prop where
  | failed {f : Ref .callable} {i j : Nat} {inner : List Deed} {g : Failure}
    (h : .ask i .source f [.context c] inner (some (j, .error g)) ∈ ds) : Refuses n ds (.call f) g
  | unread {t : String} {i : Nat} {g : Failure} (hi : n ≤ i)
    (h : (R.store i).sourceText c t = .error g.cause) : Refuses n ds (.text t) g

variable {R c} {n j k : Nat} {ds ds' : List Deed} {x : Source} {m : Entries Source}
  {vs : Entries Value} {f : Failure}

theorem Fills.keys (h : Fills R c m n ds k vs) : vs.map Prod.fst = m.map Prod.fst := by
  induction h with
  | nil => rfl
  | cons _ _ _ ih => exact congrArg _ ih

theorem Fills.le (h : Fills R c m n ds k vs) : n ≤ k := by
  induction h with
  | nil => exact le_rfl
  | cons _ hij _ ih => exact hij.trans ih

theorem Refuses.mono (h : Refuses R c j ds x f) (hn : n ≤ j) (hs : ∀ d ∈ ds, d ∈ ds') :
    Refuses R c n ds' x f := by
  cases h with
  | failed h => exact .failed (hs _ h)
  | unread hi h => exact .unread (hn.trans hi) h

end Sources

section Resolving

variable {σ : Setup} {R : Run σ.body} {c : Ref .context} {w : Ref .workflow} {N b n : Nat}
  {ds : List Deed}
variable (hσ : σ.desk.call.Obey .advancing) (hR : R.Minds .advancing) (h₀ : (R.store 0).Owned)
include hσ hR h₀

/-- What a text leads to is what it is resolved to. -/
theorem resolves_text (hc : c.index < (R.store n).contexts.size) {t : String} {v : Value}
    (hv : (R.store n).sourceText c t = .ok v) (j : Nat) : Resolves R c (.text t) n [] j v := by
  rw [Store.sourceText] at hv
  split at hv
  · next ht =>
    obtain ⟨id, hid, rfl | ⟨p, rfl⟩⟩ := Path.reference_cases ht
    · rw [Store.getPath_reference hid] at hv
      cases hv
      exact .result hid ((Run.finds_iff hσ hR h₀ hc).2 rfl)
    · rw [Store.getPath_behind hid] at hv
      exact .path hid ((Run.finds_iff hσ hR h₀ hc).2 rfl) hv
  · next ht => exact .key (by simpa using ht) hv

theorem source_resolves (hc : c.index < (R.store n).contexts.size) {x : Source} {e : Ending Value}
    (h : Account R σ.desk.call σ.plan N b n (.now (source (σ.scene w c) x)) ds e) :
    (∀ j v, e = some (j, .ok v) → Resolves R c x n ds j v) ∧
      ∀ j f, e = some (j, .error f) → Refuses R c n ds x f := by
  cases x with
  | call a =>
    obtain ⟨inner, rfl, -⟩ := h.called
    refine ⟨fun j v he => ?_, fun j f he => ?_⟩
    · subst he
      exact .called
    · subst he
      exact .failed (List.mem_singleton_self _)
  | text t =>
    have h : Account R σ.desk.call σ.plan N b n (.now (plain (.query fun s => s.sourceText c t))) ds e := h
    cases hv : (R.store n).sourceText c t with
    | ok v =>
      obtain ⟨rfl, rfl | ⟨rfl, -⟩⟩ := h.straight (Routine.eval_query_ok (f := fun s => s.sourceText c t) hv)
      · exact ⟨nofun, nofun⟩
      · refine ⟨fun j v' he => ?_, nofun⟩
        cases he
        exact resolves_text hσ hR h₀ hc hv _
    | error cause =>
      obtain ⟨rfl, rfl | ⟨rfl, -⟩⟩ := h.straight (Routine.eval_query_error (f := fun s => s.sourceText c t) hv)
      · exact ⟨nofun, nofun⟩
      · refine ⟨nofun, fun j f he => ?_⟩
        cases he
        exact .unread le_rfl hv

/-- **The sources of an input map** are resolved one after another, until one refuses. -/
theorem sources_fill : ∀ {m : Entries Source} {n : Nat} {ds : List Deed} {e : Ending (Entries Value)},
    c.index < (R.store n).contexts.size →
    Account R σ.desk.call σ.plan N b n (.now (sources (σ.scene w c) m)) ds e →
      (∀ k vs, e = some (k, .ok vs) → Fills R c m n ds k vs) ∧
        ∀ k f, e = some (k, .error f) → ∃ x ∈ m, Refuses R c n ds x.2 f
  | [], n, ds, e, _, h => by
    obtain ⟨rfl, rfl⟩ := h.done_iff
    refine ⟨fun k vs he => ?_, nofun⟩
    cases he
    exact .nil
  | (key, x) :: m, n, ds, e, hc, h => by
    rcases h.bind with ⟨ds₁, j, v, ds₂, h₁, h₂, rfl⟩ | ⟨j, f, h₁, rfl⟩ | ⟨-, rfl⟩
    · have hnj : n ≤ j := h₁.ending_ge rfl
      have hx := (source_resolves hσ hR h₀ hc h₁).1 j v rfl
      have hcj := hc.trans_le (Run.contexts_mono hσ hR hnj)
      rcases h₂.bind with ⟨ds₃, k, vs, ds₄, h₃, h₄, rfl⟩ | ⟨k, f, h₃, rfl⟩ | ⟨-, rfl⟩
      · obtain ⟨rfl, rfl⟩ := h₄.done_iff
        refine ⟨fun k vs he => ?_, nofun⟩
        cases he
        rw [List.append_nil]
        exact .cons hx hnj ((sources_fill hcj h₃).1 _ _ rfl)
      · refine ⟨nofun, fun k f he => ?_⟩
        cases he
        obtain ⟨y, hy, hrefuse⟩ := (sources_fill hcj h₃).2 _ _ rfl
        exact ⟨y, List.mem_cons_of_mem _ hy,
          hrefuse.mono hnj fun _ hd => List.mem_append_right _ hd⟩
      · exact ⟨nofun, nofun⟩
    · refine ⟨nofun, fun k f he => ?_⟩
      cases he
      exact ⟨_, List.mem_cons_self, (source_resolves hσ hR h₀ hc h₁).2 _ _ rfl⟩
    · exact ⟨nofun, nofun⟩

/-- **The input that an input map makes** is a new dictionary with what its sources are resolved to. -/
theorem inputOf_fills (hc : c.index < (R.store n).contexts.size) {t : TaskStep} {m : Entries Source}
    (hm : t.inputs = some m) {e : Ending Value}
    (h : Account R σ.desk.call σ.plan N b n (.now (inputOf (σ.scene w c) t)) ds e) :
    (∀ j v, e = some (j, .ok v) → ∃ d i vs, v = .dict d ∧ i ≤ j ∧ Fills R c m n ds i vs ∧
        (R.store i).dicts.size ≤ d.index ∧ (R.store j).get d = vs) ∧
      ∀ j f, e = some (j, .error f) → ∃ x ∈ m, Refuses R c n ds x.2 f := by
  rw [inputOf, hm] at h
  dsimp only at h
  rcases h.bind with ⟨ds₁, i, vs, ds₂, h₁, h₂, rfl⟩ | ⟨j, f, h₁, rfl⟩ | ⟨-, rfl⟩
  · obtain ⟨rfl, rfl | ⟨rfl, hs⟩⟩ := h₂.straight (Routine.eval_modifyGet _ _)
    · exact ⟨fun _ _ he => (by cases he), fun _ _ he => by cases he⟩
    · refine ⟨fun j v he => ?_, fun _ _ he => by cases he⟩
      cases he
      rw [List.append_nil]
      refine ⟨_, i, vs, rfl, Nat.le_add_right i 2, (sources_fill hσ hR h₀ hc h₁).1 _ _ rfl, le_rfl, ?_⟩
      rw [hs]
      exact Store.getD_push_size
  · refine ⟨fun _ _ he => (by cases he), fun j f he => ?_⟩
    cases he
    exact (sources_fill hσ hR h₀ hc h₁).2 _ _ rfl
  · exact ⟨fun _ _ he => (by cases he), fun _ _ he => by cases he⟩

end Resolving

/-! ## The call of the task -/

/-- Hooks that are told of the start of a task leave the dictionaries alone that they are told about. -/
structure Unspoiled {body : Procedure → Routine Value} (R : Run body) (ds : List Deed) : Prop where
  told : ∀ {i j h args inner o d}, .ask i (.hook .taskStart) h args inner (some (j, o)) ∈ ds →
    .dict d ∈ args → (R.store j).get d = (R.store i).get d

section Calling

variable {body : Procedure → Routine Value} {R : Run body} {run : Handlers}
  {plan : Procedure → Outline Value} {N b n : Nat} {ds : List Deed} {r : Ref .task}
  {input context : Value} {e : Ending Value}

/-- What is a dictionary's before an emission is still its behind it. -/
theorem emission_keeps {args : List Value} {d : Ref .dict} {j : Nat}
    (h : Account R run plan N b n (.now (.emit .taskStart args)) ds (some (j, .ok ())))
    (hd : .dict d ∈ args) (hds : Unspoiled R ds) : (R.store j).get d = (R.store n).get d := by
  refine (h.keeps (P := fun s => s.get d = (R.store n).get d)
    (Outline.keeps_emit (fun _ _ hs => hs) _ _) rfl ⟨fun hask hs => ?_⟩).2 _ _ rfl
  obtain ⟨rfl, rfl⟩ := h.emission_asks hask
  exact (hds.told hask hd).trans hs

/-- **The unit of work** of a task is called with the input and the context, unless a hook fails. -/
theorem outline_works
    (h : Account R run plan N b n (.now (Task.outline r input context)) ds e) :
    (∀ {k a args inner e'}, .ask k .work a args inner e' ∈ ds → n ≤ k ∧ args = [input, context] ∧
      ∀ d, input = .dict d → Unspoiled R ds → (R.store k).get d = (R.store n).get d) ∧
    ∀ j o, e = some (j, o) → (∃ k a args inner e', .ask k .work a args inner e' ∈ ds) ∨
      ∃ f i a args inner t, o = .error f ∧
        .ask i (.hook .taskStart) a args inner (some (t, .error f)) ∈ ds := by
  have hidle : ∀ {name : HookName} {args i ds} {e : Ending Unit},
      Account R run plan N b i (.now (.emit name args)) ds e → Deed.Idle ds :=
    fun h k a args inner e' hd => nomatch (h.emission_asks hd).1
  have hafter : ∀ {name : HookName} {args : List Value} {x : Outline Value} {i ds} {e : Ending Value},
      (∀ {i ds e}, Account R run plan N b i (.now x) ds e → ds = []) →
        Account R run plan N b i (.now (emit name args >>= fun _ => x)) ds e → Deed.Idle ds := by
    intro name args x i ds e hx h
    rcases h.bind with ⟨ds₁, j, u, ds₂, h₁, h₂, rfl⟩ | ⟨j, f, h₁, -⟩ | ⟨h₁, -⟩
    · exact (hidle h₁).append (hx h₂ ▸ Deed.idle_nil)
    · exact hidle h₁
    · exact hidle h₁
  rcases h.bind with ⟨ds₁, i, u, ds₂, h₁, h₂, rfl⟩ | ⟨j, f, h₁, rfl⟩ | ⟨h₁, rfl⟩
  · have hni : n ≤ i := h₁.ending_ge rfl
    rcases h₂.straight_bind (Routine.eval_read _ _) with ⟨rfl, rfl⟩ | ⟨hs, h₃⟩
    · refine ⟨fun hd => ?_, nofun⟩
      rw [List.append_nil] at hd
      exact absurd hd (hidle h₁ _ _ _ _ _)
    -- Behind the hooks the unit of work is called, and behind it nothing but hooks.
    obtain ⟨inner, e', ds₃, rfl, hrest⟩ : ∃ inner e' ds₃,
        ds₂ = .ask (i + 1) .work ((R.store i).get r).handler [input, context] inner e' :: ds₃ ∧
          Deed.Idle ds₃ := by
      rcases h₃.attempt with ⟨ds₃, j, o, ds₄, h₄, -, h₅, rfl⟩ | ⟨j, f, h₄, -, -⟩ | ⟨h₄, -⟩
      · obtain ⟨inner, rfl, -⟩ := h₄.called
        refine ⟨inner, _, ds₄, rfl, ?_⟩
        cases o with
        | ok v => exact hafter (fun h => h.done_iff.1) h₅
        | error f => exact hafter (fun h => h.fail_iff.1) h₅
      · obtain ⟨inner, rfl, -⟩ := h₄.called
        exact ⟨inner, _, [], rfl, Deed.idle_nil⟩
      · obtain ⟨inner, rfl, -⟩ := h₄.called
        exact ⟨inner, _, [], rfl, Deed.idle_nil⟩
    refine ⟨fun {k a args inner' e''} hd => ?_, fun j o _ => Or.inl ⟨_, _, _, _, _,
      List.mem_append_right _ List.mem_cons_self⟩⟩
    rcases List.mem_append.1 hd with hd | hd
    · exact absurd hd (hidle h₁ _ _ _ _ _)
    rcases List.mem_cons.1 hd with hd | hd
    · cases hd
      refine ⟨hni.trans (Nat.le_succ i), rfl, ?_⟩
      rintro d rfl hds
      rw [hs]
      exact emission_keeps h₁ (by simp) ⟨fun hask => hds.told (List.mem_append_left _ hask)⟩
    · exact absurd hd (hrest _ _ _ _ _)
  · refine ⟨fun hd => absurd hd (hidle h₁ _ _ _ _ _), fun j' o he => Or.inr ?_⟩
    cases he
    obtain ⟨asks, rfl, hrings⟩ := h₁.emission
    cases hrings with
    | failed _ _ _ hf => exact ⟨f, _, _, _, _, _, rfl, List.mem_cons_of_mem _ hf⟩
  · exact ⟨fun hd => absurd hd (hidle h₁ _ _ _ _ _), nofun⟩

end Calling

section Given

variable {body : Procedure → Routine Value} (R : Run body) (c : Ref .context)

/-- With what the unit of work is called at a moment: a new dictionary that has the keys of the input map,
in order, with what their sources have been resolved to, and the context. -/
inductive Given (m : Entries Source) (n : Nat) (ds : List Deed) : Nat → List Value → Prop where
  | made {i j k : Nat} {src : List Deed} {d : Ref .dict} {vs : Entries Value} (hi : n ≤ i)
    (hfills : Fills R c m i src j vs) (hsrc : src <:+: ds) (hk : j ≤ k)
    (hnew : (R.store j).dicts.size ≤ d.index) (hkeys : vs.map Prod.fst = m.map Prod.fst)
    (hd : Unspoiled R ds → (R.store k).get d = vs) : Given m n ds k [.dict d, .context c]

/-- Why the unit of work is not called by a task step that ends with an outcome. -/
inductive Withheld (t : TaskStep) (m : Entries Source) (n : Nat) (ds : List Deed) :
    Except Failure Value → Prop where
  /-- The task is not registered. -/
  | unknown {i : Nat} {f : Failure} (hi : n ≤ i) (h : (R.store i).task t.task = .error f.cause) :
    Withheld t m n ds (.error f)
  /-- The condition of the step does not hold. -/
  | skipped {a : Ref .callable} {i j : Nat} {inner : List Deed} {v : Value}
    (ha : t.condition = some a)
    (h : .ask i .condition a [.context c] inner (some (j, .ok v)) ∈ ds)
    (hv : (R.store j).isTruthy v = false) : Withheld t m n ds (.ok .null)
  /-- The condition fails. -/
  | doubted {a : Ref .callable} {i j : Nat} {inner : List Deed} {f g : Failure}
    (ha : t.condition = some a)
    (h : .ask i .condition a [.context c] inner (some (j, .error g)) ∈ ds) :
    Withheld t m n ds (.error f)
  | refused {x : String × Source} {f : Failure} (hx : x ∈ m) (h : Refuses R c n ds x.2 f) :
    Withheld t m n ds (.error f)
  /-- A hook that is told of the start fails. -/
  | stopped {a : Ref .callable} {i j : Nat} {args : List Value} {inner : List Deed} {f : Failure}
    (h : .ask i (.hook .taskStart) a args inner (some (j, .error f)) ∈ ds) :
    Withheld t m n ds (.error f)

variable {R c} {m : Entries Source} {n j k : Nat} {ds ds' : List Deed} {args : List Value}
  {t : TaskStep} {o : Except Failure Value}

theorem Unspoiled.mono (h : Unspoiled R ds) (hs : ∀ d ∈ ds', d ∈ ds) : Unspoiled R ds' :=
  ⟨fun hd => h.told (hs _ hd)⟩

theorem Given.inside (h : Given R c m j ds k args) (hn : n ≤ j) (hds : ds <:+: ds') :
    Given R c m n ds' k args := by
  cases h with
  | made hi hfills hsrc hk hnew hkeys hd =>
    exact .made (hn.trans hi) hfills (hsrc.trans hds) hk hnew hkeys fun hu => hd (hu.mono hds.subset)

theorem Withheld.inside (h : Withheld R c t m j ds o) (hn : n ≤ j) (hds : ds <:+: ds') :
    Withheld R c t m n ds' o := by
  have hsub := hds.subset
  cases h with
  | unknown hi h => exact .unknown (hn.trans hi) h
  | skipped ha h hv => exact .skipped ha (hsub h) hv
  | doubted ha h => exact .doubted ha (hsub h)
  | refused hx h => exact .refused hx (h.mono hn fun _ hd => hsub hd)
  | stopped h => exact .stopped (hsub h)

/-- Every call of the unit of work is with what the input map makes, and there is one unless there is a
reason. -/
structure Serves (R : Run body) (c : Ref .context) (t : TaskStep) (m : Entries Source) (n : Nat)
    (ds : List Deed) (e : Ending Value) : Prop where
  given : ∀ {k a args inner e'}, .ask k .work a args inner e' ∈ ds → Given R c m n ds k args
  reasons : ∀ j o, e = some (j, o) → (∃ k a args inner e', .ask k .work a args inner e' ∈ ds) ∨
    Withheld R c t m n ds o

theorem Serves.of_idle {e : Ending Value} (h : Deed.Idle ds)
    (he : ∀ j o, e = some (j, o) → Withheld R c t m n ds o) : Serves R c t m n ds e :=
  ⟨fun hd => absurd hd (h _ _ _ _ _), fun j o hj => Or.inr (he j o hj)⟩

theorem Serves.behind {e : Ending Value} (h : Serves R c t m j ds e) (hn : n ≤ j)
    (hidle : Deed.Idle ds') : Serves R c t m n (ds' ++ ds) e := by
  have hinfix : ds <:+: ds' ++ ds := (List.suffix_append ds' ds).isInfix
  refine ⟨fun {k a args inner e'} hd => ?_, fun i o he => ?_⟩
  · exact (h.given ((List.mem_append.1 hd).resolve_left (hidle _ _ _ _ _))).inside hn hinfix
  · rcases h.reasons i o he with ⟨k, a, args, inner, e', hd⟩ | h
    · exact Or.inl ⟨k, a, args, inner, e', hinfix.subset hd⟩
    · exact Or.inr (h.inside hn hinfix)

end Given

section Tasks

variable {σ : Setup} {R : Run σ.body} {c : Ref .context} {w : Ref .workflow} {N b n : Nat}
  {ds : List Deed} {t : TaskStep} {m : Entries Source} {e : Ending Value}
variable (hσ : σ.desk.call.Obey .advancing) (hR : R.Minds .advancing) (h₀ : (R.store 0).Owned)
  (hm : t.inputs = some m)
include hσ hR h₀ hm

theorem serves_runTask (hc : c.index < (R.store n).contexts.size) {r : Ref .task}
    (h : Account R σ.desk.call σ.plan N b n (.now (runTask (σ.scene w c) t r)) ds e) :
    Serves R c t m n ds e := by
  have hinput : ∀ {ds e}, Account R σ.desk.call σ.plan N b n (.now (inputOf (σ.scene w c) t)) ds e →
      Deed.Idle ds := fun h => (Account.inputOf_idle (σ := σ.scene w c) h).1
  rcases h.bind with ⟨ds₁, i, v, ds₂, h₁, h₂, rfl⟩ | ⟨j, f, h₁, rfl⟩ | ⟨h₁, rfl⟩
  · obtain ⟨d, i', vs, rfl, hi', hfills, hnew, hvs⟩ := (inputOf_fills hσ hR h₀ hc hm h₁).1 _ _ rfl
    -- Behind the task nothing but the model's own code follows.
    obtain ⟨ds₃, ds₄, e₃, h₃, hidle₄, rfl, hover⟩ : ∃ ds₃ ds₄ e₃,
        Account R σ.desk.call σ.plan N b i (.now (Task.outline r (.dict d) (.context c))) ds₃ e₃ ∧
          Deed.Idle ds₄ ∧ ds₂ = ds₃ ++ ds₄ ∧ ∀ j o, e = some (j, o) →
            (∃ x, e₃ = some x) ∧ ∀ j' f, e₃ = some (j', .error f) → o = .error f := by
      rcases h₂.bind with ⟨ds₃, k, v, ds₄, h₃, h₄, rfl⟩ | ⟨k, f, h₃, rfl⟩ | ⟨h₃, rfl⟩
      · refine ⟨ds₃, ds₄, _, h₃, ?_, rfl, fun _ _ _ => ⟨⟨_, rfl⟩, nofun⟩⟩
        exact (h₄.bind_idle (fun h => h.plain_idle) fun h => by
          obtain ⟨rfl, -⟩ := h.done_iff
          exact ⟨Deed.idle_nil, rfl⟩).1
      · refine ⟨ds₂, [], _, h₃, Deed.idle_nil, (List.append_nil _).symm, fun j o he => ?_⟩
        cases he
        exact ⟨⟨_, rfl⟩, fun _ _ he => by cases he; rfl⟩
      · exact ⟨ds₂, [], _, h₃, Deed.idle_nil, (List.append_nil _).symm, nofun⟩
    have hmem : ∀ x ∈ ds₃, x ∈ ds₁ ++ (ds₃ ++ ds₄) := fun x hx =>
      List.mem_append_right _ (List.mem_append_left _ hx)
    obtain ⟨hworks, hends⟩ := outline_works h₃
    refine ⟨fun {k a args inner e'} hd => ?_, fun j o he => ?_⟩
    · have hd₃ : .ask k .work a args inner e' ∈ ds₃ :=
        (List.mem_append.1 ((List.mem_append.1 hd).resolve_left (hinput h₁ _ _ _ _ _))).resolve_right
          (hidle₄ _ _ _ _ _)
      obtain ⟨hik, rfl, hget⟩ := hworks hd₃
      refine .made le_rfl hfills (List.prefix_append ds₁ _).isInfix (hi'.trans hik) hnew hfills.keys
        fun hu => ?_
      rw [hget d rfl (hu.mono hmem), hvs]
    · obtain ⟨⟨⟨j', o'⟩, rfl⟩, ho⟩ := hover j o he
      rcases hends j' o' rfl with ⟨k, a, args, inner, e', hd⟩ | ⟨f, i, a, args, inner, s, rfl, hd⟩
      · exact Or.inl ⟨k, a, args, inner, e', hmem _ hd⟩
      · rw [ho _ _ rfl]
        exact Or.inr (.stopped (hmem _ hd))
  · refine .of_idle (hinput h₁) fun j o he => ?_
    cases he
    obtain ⟨x, hx, hrefuse⟩ := (inputOf_fills hσ hR h₀ hc hm h₁).2 _ _ rfl
    exact .refused hx hrefuse
  · exact .of_idle (hinput h₁) nofun

omit hσ hR h₀ hm in
/-- Whether a condition holds is asked once. -/
theorem holds_asks {a : Ref .callable} {step : String} {e : Ending Bool}
    (h : Account R σ.desk.call σ.plan N b n (.now (holds (σ.scene w c) a step)) ds e) :
    ∃ inner e', ds = [.ask n .condition a [.context c] inner e'] ∧
      (∀ j x, e = some (j, .ok x) → ∃ i v, e' = some (i, .ok v) ∧ (R.store i).isTruthy v = x) ∧
      ∀ j f, e = some (j, .error f) → ∃ i g, e' = some (i, .error g) := by
  rcases h.attempt with ⟨ds₁, i, o, ds₂, h₁, -, h₂, rfl⟩ | ⟨j, f, h₁, -, rfl⟩ | ⟨h₁, rfl⟩
  · obtain ⟨inner, rfl, -⟩ := h₁.called
    cases o with
    | ok v =>
      obtain ⟨rfl, he⟩ := h₂.straight (Routine.eval_read _ _)
      refine ⟨inner, _, rfl, fun j x hx => ⟨i, v, rfl, ?_⟩, fun j f hf => ?_⟩
      · rcases he with rfl | ⟨rfl, -⟩ <;> cases hx
        rfl
      · rcases he with rfl | ⟨rfl, -⟩ <;> cases hf
    | error f =>
      obtain ⟨rfl, he⟩ := h₂.straight (Routine.eval_raise _ _)
      refine ⟨inner, _, rfl, fun j x hx => ?_, fun _ _ _ => ⟨i, f, rfl⟩⟩
      rcases he with rfl | ⟨rfl, -⟩ <;> cases hx
  · obtain ⟨inner, rfl, -⟩ := h₁.called
    exact ⟨inner, _, rfl, nofun, fun _ _ _ => ⟨_, _, rfl⟩⟩
  · obtain ⟨inner, rfl, -⟩ := h₁.called
    exact ⟨inner, _, rfl, nofun, nofun⟩

theorem serves_dispatch {step : Step} (hk : step.kind = .task t)
    (hc : c.index < (R.store n).contexts.size)
    (h : Account R σ.desk.call σ.plan N b n (.now (dispatch (σ.scene w c) step)) ds e) :
    Serves R c t m n ds e := by
  rw [dispatch, hk] at h
  dsimp only at h
  cases hr : (R.store n).task t.task with
  | error cause =>
    obtain ⟨rfl, he⟩ := h.straight_bind_error (Routine.eval_query_error (f := fun s => s.task t.task) hr)
    refine .of_idle Deed.idle_nil fun j o hj => ?_
    rcases he with rfl | ⟨rfl, -⟩ <;> cases hj
    exact .unknown le_rfl hr
  | ok r =>
    rcases h.straight_bind (Routine.eval_query_ok (f := fun s => s.task t.task) hr) with
      ⟨rfl, rfl⟩ | ⟨-, h⟩
    · exact .of_idle Deed.idle_nil fun _ _ he => by cases he
    have hrun : ∀ {i ds}, n ≤ i →
        Account R σ.desk.call σ.plan N b i (.now (runTask (σ.scene w c) t r)) ds e →
          Serves R c t m i ds e := fun hi =>
      serves_runTask hσ hR h₀ hm (hc.trans_le (Run.contexts_mono hσ hR hi))
    have hn : n ≤ n + 1 := Nat.le_succ n
    cases hcond : t.condition with
    | none =>
      rw [hcond] at h
      exact (hrun hn h).behind hn Deed.idle_nil
    | some a =>
      rw [hcond] at h
      dsimp only at h
      rcases h.bind with ⟨ds₁, i, x, ds₂, h₁, h₂, rfl⟩ | ⟨j, f, h₁, rfl⟩ | ⟨h₁, rfl⟩
      · obtain ⟨inner, e', rfl, hholds, -⟩ := holds_asks h₁
        obtain ⟨j, v, rfl, hv⟩ := hholds _ _ rfl
        have hi : n ≤ i := hn.trans (h₁.ending_ge rfl)
        cases x with
        | true => exact (hrun hi h₂).behind hi (Deed.idle_ask (by simp))
        | false =>
          have hnil : ds₂ = [] ∧ ∀ j o, e = some (j, o) → o = .ok .null := by
            rcases h₂.straight_bind (Routine.eval_alter _ _) with ⟨rfl, rfl⟩ | ⟨-, h₃⟩
            · exact ⟨rfl, fun _ _ he => by cases he⟩
            · obtain ⟨rfl, rfl⟩ := h₃.done_iff
              exact ⟨rfl, fun j o he => by cases he; rfl⟩
          obtain ⟨rfl, he⟩ := hnil
          refine .of_idle (Deed.idle_ask (by simp)) fun j o hj => ?_
          rw [he j o hj]
          exact .skipped hcond List.mem_cons_self hv
      · obtain ⟨inner, e', rfl, -, hfails⟩ := holds_asks h₁
        obtain ⟨i, g, rfl⟩ := hfails _ _ rfl
        refine .of_idle (Deed.idle_ask (by simp)) fun j o he => ?_
        cases he
        exact .doubted hcond (List.mem_singleton_self _)
      · obtain ⟨inner, e', rfl, -, -⟩ := holds_asks h₁
        exact .of_idle (Deed.idle_ask (by simp)) fun _ _ he => by cases he

/-- **What a task with an input map is given.** Whenever the unit of work of such a step is called, it is
with a new dictionary and the context. The dictionary has exactly the keys of the map, in order. What
stands under a key is what its source has been resolved to, at its own moment: what user code gives for
the context; what the input has under the text, dots and all; or what a path finds in what the records
and forks of the run make the context find for a step. And it is called, unless there is a reason.

What a context finds for a step does not change as long as nothing is recorded for the step in the context
itself, whatever is recorded in others. -/
theorem inputs_resolved {step : Step} (hk : step.kind = .task t)
    (hc : c.index < (R.store n).contexts.size)
    (h : Account R σ.desk.call σ.plan N b n (.now (dispatch (σ.scene w c) step)) ds e) :
    (∀ {k a args inner e'}, .ask k .work a args inner e' ∈ ds → Given R c m n ds k args) ∧
    (∀ j o, e = some (j, o) → (∃ k a args inner e', .ask k .work a args inner e' ∈ ds) ∨
      Withheld R c t m n ds o) ∧
    ∀ {i k id r}, c.index < (R.store i).contexts.size → i ≤ k →
      (∀ j v, i ≤ j → j < k → ¬R.Records j c id v) → (R.Finds id k c r ↔ R.Finds id i c r) := by
  have hserves := serves_dispatch hσ hR h₀ hm hk hc h
  refine ⟨hserves.given, hserves.reasons, fun {i k id r} hi hik hnone => ?_⟩
  have hck := hi.trans_le (Run.contexts_mono hσ hR hik)
  rw [Run.finds_iff hσ hR h₀ hi, Run.finds_iff hσ hR h₀ hck, Run.found_kept hσ hR h₀ hi hik hnone]

end Tasks

/-! ## A task in a fork -/

/-- A source that gives the input of the context, and work that gives back what it is given. -/
def givenSetup : Setup :=
  ⟨default, ⟨fun a args =>
    if a.index = 0 then .done (args.headD .null)
    else .read fun s => match args with
      | [.context c] => (s.get c).input
      | _ => .null, default, none, [], [], none⟩⟩

/-- A source of each kind: user code, a key with a dot in it, and a path into a result. -/
def givenStep : Step :=
  ⟨"use", .task ⟨"t", some [("all", .call ⟨1⟩), ("key", .text "a.b"), ("x", .text "steps.make.x")], none,
    none, 0, .int 0⟩, .none⟩

/-- A context in which a result is recorded, before it is forked. -/
def givenParent : Store :=
  let s := { Store.empty with
    workflows := #[⟨"w", "w", [("use", givenStep)], "use", .null, .null, .null, [], [], []⟩]
    tasks := #[⟨"t", ⟨0⟩, .null, .null, .null⟩]
    taskRegistry := [("t", ⟨0⟩)]
    dicts := #[[("x", .int 5)], [("a.b", .int 9)]] }
  (s.newContext .null [("make", .dict ⟨0⟩)] [] [] [] none 0).2

def givenStore : Store := (givenParent.fork ⟨0⟩ (.dict ⟨1⟩)).2

def givenRun : Run givenSetup.body :=
  .launched _ givenStore ((givenSetup.scene ⟨0⟩ ⟨1⟩).dispatch givenStep)

theorem owned_givenStore : givenStore.Owned := by
  have hempty : ∀ s : Store, s.contexts = #[] → s.Owned := fun s hs =>
    ⟨fun c hc => absurd (hs ▸ hc) (Nat.not_lt_zero _), fun c _ hc => absurd (hs ▸ hc) (Nat.not_lt_zero _)⟩
  have hparent : givenParent.Owned := (hempty _ rfl).makes (Store.makes_newContext ..)
  exact hparent.makes (Store.makes_newContext ..)

theorem inputs_resolved_fork : (∃ m ds k a args inner e',
      givenStep.kind = .task ⟨"t", some m, none, none, 0, .int 0⟩ ∧
        .ask k .work a args inner e' ∈ ds ∧ Given givenRun ⟨1⟩ m 1 ds k args) ∧
    (givenRun.moment 20).outcome? 0 = some (.ok (.dict ⟨8⟩)) ∧
    (givenRun.store 20).get (⟨8⟩ : Ref .dict) =
      [("all", .dict ⟨1⟩), ("key", .int 9), ("x", .int 5)] := by
  have hobey : ∀ {C : Conduct}, givenSetup.desk.call.Obey C := fun a args s => by
    show (if a.index = 0 then _ else _ : Routine Value).Obeys _ s
    split <;> trivial
  have htame : givenSetup.desk.call.Tame := fun a args => by
    show (if a.index = 0 then _ else _ : Routine Value).Tame
    split
    · trivial
    · exact Routine.tame_read _
  have hminds : givenRun.Minds .advancing :=
    Run.minds_launched_in (dispatch_obeys_advancing hobey (by decide))
  have hend : (givenRun.moment 20).outcome? 0 = some (.ok (.dict ⟨8⟩)) := by decide +kernel
  refine ⟨?_, hend, by decide +kernel⟩
  obtain ⟨ds, t, h, -⟩ := launched_dispatch htame hobey givenStore ⟨0⟩ ⟨1⟩ givenStep (by decide) hend
  obtain ⟨hgiven, hends, -⟩ := inputs_resolved (R := givenRun) hobey hminds owned_givenStore rfl rfl
    (by decide) h
  rcases hends _ _ rfl with ⟨k, a, args, inner, e', hd⟩ | hwithheld
  · exact ⟨_, ds, k, a, args, inner, e', rfl, hd, hgiven hd⟩
  · cases hwithheld

end Workflow

end Conductor
