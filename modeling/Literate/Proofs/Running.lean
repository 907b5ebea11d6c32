import Literate.Proofs.Planning
import Literate.World

namespace Literate

namespace World

variable {α β : Type}

/-- How a run ends in these surroundings, and the surroundings it leaves. -/
def after (w : World) (x : ExceptT Fault (StateM World) α) : Except Fault α × World := x.run.run w

theorem after_bind_ok {w w' : World} {x : ExceptT Fault (StateM World) α} {a : α}
    (h : w.after x = (.ok a, w')) (f : α → ExceptT Fault (StateM World) β) :
    w.after (x >>= f) = w'.after (f a) := by
  have run : x.run.run w = (.ok a, w') := h
  show (ExceptT.run (x >>= f)).run w = _
  rw [ExceptT.run_bind, StateT.run_bind, run]
  rfl

theorem after_bind_error {w w' : World} {x : ExceptT Fault (StateM World) α} {e : Fault}
    (h : w.after x = (.error e, w')) (f : α → ExceptT Fault (StateM World) β) :
    w.after (x >>= f) = (.error e, w') := by
  have run : x.run.run w = (.error e, w') := h
  show (ExceptT.run (x >>= f)).run w = _
  rw [ExceptT.run_bind, StateT.run_bind, run]
  rfl

/-- A sequence fails in its first part, or in its second after the first. -/
theorem after_bind_eq_error {w w' : World} {x : ExceptT Fault (StateM World) α}
    {f : α → ExceptT Fault (StateM World) β} {e : Fault} (h : w.after (x >>= f) = (.error e, w')) :
    w.after x = (.error e, w') ∨
      ∃ a w₁, w.after x = (.ok a, w₁) ∧ w₁.after (f a) = (.error e, w') := by
  match first : w.after x with
  | (.ok a, w₁) =>
    rw [after_bind_ok first] at h
    exact Or.inr ⟨a, w₁, rfl, h⟩
  | (.error e₁, w₁) =>
    rw [after_bind_error first] at h
    left
    simpa using h

theorem after_bind_eq_ok {w w' : World} {x : ExceptT Fault (StateM World) α}
    {f : α → ExceptT Fault (StateM World) β} {b : β} (h : w.after (x >>= f) = (.ok b, w')) :
    ∃ a w₁, w.after x = (.ok a, w₁) ∧ w₁.after (f a) = (.ok b, w') := by
  match first : w.after x with
  | (.ok a, w₁) =>
    rw [after_bind_ok first] at h
    exact ⟨a, w₁, rfl, h⟩
  | (.error e, w₁) =>
    rw [after_bind_error first] at h
    simp at h

/-- Doing something without a fault of its own. -/
@[simp] theorem after_lift (w : World) (x : StateM World α) :
    w.after (liftM x) = (.ok (x.run w).1, (x.run w).2) := rfl

@[simp] theorem after_pure (w : World) (a : α) : w.after (pure a) = (.ok a, w) := rfl

theorem after_attempt_ok {w w' : World} {x : StateM World (Except FileFault α)} {a : α}
    (h : x.run w = (.ok a, w')) (fault : FileFault → Fault) :
    w.after (Host.attempt fault x) = (.ok a, w') := by
  show (StateT.run (x >>= _) w) = _
  rw [StateT.run_bind, h]
  rfl

theorem after_attempt_error {w w' : World} {x : StateM World (Except FileFault α)} {e : FileFault}
    (h : x.run w = (.error e, w')) (fault : FileFault → Fault) :
    w.after (Host.attempt fault x) = (.error (fault e), w') := by
  show (StateT.run (x >>= _) w) = _
  rw [StateT.run_bind, h]
  rfl

theorem run_record (es : List Event) (w : World) :
    StateT.run (es.forM (Host.record : Event → StateM World Unit)) w =
      ((), { w with events := w.events ++ es }) := by
  induction es generalizing w with
  | nil =>
    show ((), w) = ((), { w with events := w.events ++ [] })
    rw [List.append_nil]
  | cons e es ih =>
    show StateT.run (es.forM Host.record) { w with events := w.events ++ [e] } = _
    rw [ih, List.append_assoc]
    rfl

/-- A computation that only reports leaves all but the events as it was. -/
theorem after_run (w : World) (x : Traced α) :
    w.after (Host.run x) = (x.outcome, { w with events := w.events ++ x.events }) := by
  show (StateT.run (_ >>= _) w) = _
  rw [StateT.run_bind, run_record]
  rfl

end World

namespace Action

open World

/-- Actions that are performed one after the other. The first that fails is the last. -/
inductive Performs : World → List Action → Except Fault Unit → World → Prop where
  | nil {w : World} : Performs w [] (.ok ()) w
  | step {w w' w'' : World} {a : Action} {later : List Action} {r : Except Fault Unit} :
      w.after a.perform = (.ok (), w') → Performs w' later r w'' → Performs w (a :: later) r w''
  | stop {w w' : World} {a : Action} {later : List Action} {e : Fault} :
      w.after a.perform = (.error e, w') → Performs w (a :: later) (.error e) w'

theorem after_performAll_cons (w : World) (a : Action) (later : List Action) :
    w.after (performAll (a :: later)) = w.after (a.perform >>= fun _ => performAll later) := rfl

theorem performs_performAll (w : World) (actions : List Action) :
    Performs w actions (w.after (performAll actions)).1 (w.after (performAll actions)).2 := by
  induction actions generalizing w with
  | nil => exact .nil
  | cons a later ih =>
    rw [after_performAll_cons]
    match h : w.after a.perform with
    | (.ok (), w') =>
      rw [after_bind_ok h]
      exact .step h (ih w')
    | (.error e, w') =>
      rw [after_bind_error h]
      exact .stop h

/-- An attempt fails with the fault it stands for. -/
theorem fault_of_attempt {α : Type} {w w' : World} {x : StateM World (Except FileFault α)}
    {fault : FileFault → Fault} {e : Fault} (h : w.after (Host.attempt fault x) = (.error e, w')) :
    ∃ cause, e = fault cause := by
  match hx : x.run w with
  | (.ok a, w₁) =>
    rw [after_attempt_ok hx] at h
    simp at h
  | (.error cause, w₁) =>
    rw [after_attempt_error hx] at h
    exact ⟨cause, by simpa using (congrArg Prod.fst h).symm⟩

theorem perform_write (name path content : Text) (createDirs : Bool) :
    (perform (.write name path content createDirs) : ExceptT Fault (StateM World) Unit) =
      (if createDirs then
        match Path.parent? path with
        | some parent => Host.attempt .file (Host.makeDirs parent)
        | none => pure ()
       else pure ()) >>= fun _ =>
      Host.attempt .file (replaceFile path content) >>= fun _ =>
      liftM (Host.record (.wrote name path) : StateM World Unit) := by
  cases createDirs with
  | true =>
    cases h : Path.parent? path with
    | some parent => simp [perform, h]
    | none => simp [perform, h]
  | false => simp [perform]

/-- Performing an action fails only because a file operation is refused. -/
theorem fault_of_perform {w w' : World} {a : Action} {e : Fault}
    (h : w.after a.perform = (.error e, w')) : ∃ cause, e = .file cause := by
  cases a with
  | print name content => simp [perform] at h
  | write name path content createDirs =>
    rw [perform_write] at h
    rcases after_bind_eq_error h with made | ⟨_, w₁, _, h⟩
    · split at made
      · split at made
        · exact fault_of_attempt made
        · simp at made
      · simp at made
    · rcases after_bind_eq_error h with replaced | ⟨_, w₂, _, recorded⟩
      · exact fault_of_attempt replaced
      · simp at recorded

theorem Performs.fault {w final : World} {actions : List Action} {r : Except Fault Unit}
    (h : Performs w actions r final) {e : Fault} (he : r = .error e) : ∃ cause, e = .file cause := by
  induction h with
  | nil => simp at he
  | step _ _ ih => exact ih he
  | stop failed =>
    obtain rfl := Except.error.inj he
    exact fault_of_perform failed

end Action

/-- The faults of reading a document, of the selection and of the expansions. -/
def Fault.isEarly : Fault → Bool
  | .sourceFile .. | .source _ | .noTarget | .notFound _ | .unresolved _ | .cyclic _ => true
  | .file _ | .settingsFile .. | .settingsText => false

theorem Fault.ne_file_of_isEarly {e : Fault} (h : e.isEarly = true) (cause : FileFault) :
    e ≠ .file cause := by
  rintro rfl
  simp [isEarly] at h

theorem Token.fault_of_scan {path : Option Text} {t : Text} {e : Fault}
    (h : (scan path t).outcome = .error e) : e.isEarly = true := by
  unfold scan at h
  split at h
  · obtain rfl := Except.error.inj h
    rfl
  · rw [Traced.outcome_bind] at h
    simp [bind, Except.bind] at h

theorem Document.fault_of_read {path : Option Text} {source : Text} {e : Fault}
    (h : (read path source).outcome = .error e) : e.isEarly = true := by
  rw [read, Traced.outcome_bind, Read.bind_error_iff] at h
  rcases h with h | ⟨ts, _, h⟩
  · exact Token.fault_of_scan h
  · rw [Traced.outcome_bind, Read.bind_error_iff] at h
    rcases h with h | ⟨cs, _, h⟩
    · obtain ⟨fault, rfl⟩ := Read.chunks_fault h
      rfl
    · rw [Traced.outcome_bind] at h
      simp [bind, Except.bind] at h

namespace Scope

variable {s : Scope}

theorem fault_of_expandAll {trail : Trail} {indent : Text} {gs : List Segment} {e : Fault}
    (h : (s.expandAll trail indent gs).outcome = .error e) : e.isEarly = true := by
  induction trail, indent, gs using expandAll.induct s with
  | case1 => simp at h
  | case2 trail indent t rest ih =>
    exact ih (expandAll_text_outcome_error.1 h)
  | case3 trail indent name own loc rest hr =>
    rw [expandAll_reference_unresolved hr] at h
    obtain rfl := Except.error.inj h
    rfl
  | case4 trail indent name own loc rest c hr names he =>
    rw [expandAll_reference_cyclic hr he] at h
    obtain rfl := Except.error.inj h
    rfl
  | case5 trail indent name own loc rest c hr inner he ihInner ihRest =>
    rcases (expandAll_reference_outcome_error hr he).1 h with h | ⟨_, _, h⟩
    · exact ihInner h
    · exact ihRest h

theorem fault_of_output {c : Chunk} {e : Fault} (h : (s.output c).outcome = .error e) :
    e.isEarly = true := by
  rw [output, Traced.outcome_bind, Read.bind_error_iff] at h
  rcases h with h | ⟨_, _, h⟩
  · exact fault_of_expandAll h
  · simp at h

end Scope

theorem Table.fault_of_select {t : Table} {requested : List Text} {root : Text} {e : Fault}
    (h : t.select requested root = .error e) : e.isEarly = true := by
  unfold select at h
  split at h
  · split at h
    · simp at h
    · split at h
      · obtain rfl := Except.error.inj h
        rfl
      · simp at h
  · rw [Read.bind_error_iff] at h
    rcases h with h | ⟨_, _, h⟩
    · obtain ⟨name, _, missing⟩ := exists_fault_of_mapM h
      obtain ⟨_, rfl⟩ := fault_of_find missing
      rfl
    · simp [pure, Except.pure] at h

namespace Context

theorem outcome_action_ok (x : Context) (o : Output) : ∃ a, (x.action o).outcome = .ok a := by
  unfold action
  split
  · exact ⟨_, rfl⟩
  · exact ⟨_, rfl⟩

theorem fault_of_plan {x : Context} {d : Document} {requested : List Text} {e : Fault}
    (h : (x.plan d requested).outcome = .error e) : e.isEarly = true := by
  rw [outcome_plan, Read.bind_error_iff] at h
  rcases h with h | ⟨selection, _, h⟩
  · exact Table.fault_of_select h
  · rw [Traced.outcome_bind, Read.bind_error_iff] at h
    rcases h with h | ⟨outputs, _, h⟩
    · rw [Traced.outcome_mapM] at h
      obtain ⟨c, _, failed⟩ := exists_fault_of_mapM h
      exact Scope.fault_of_output failed
    · rw [Traced.outcome_mapM] at h
      obtain ⟨o, _, failed⟩ := exists_fault_of_mapM h
      obtain ⟨a, made⟩ := x.outcome_action_ok o
      simp [made] at failed

/-- The actions of a run, from the files alone. -/
def planned (x : Context) (files : FileTree) (file : Text) (requested : List Text) :
    Except Fault (List Action) :=
  match files.readText (x.resolve file) with
  | .error cause => .error (.sourceFile (x.resolve file) cause)
  | .ok source => (x.planSource (some file) source requested).outcome

theorem fault_of_planned {x : Context} {files : FileTree} {file : Text} {requested : List Text}
    {e : Fault} (h : x.planned files file requested = .error e) : e.isEarly = true := by
  unfold planned at h
  split at h
  · obtain rfl := Except.error.inj h
    rfl
  · rw [planSource, Traced.outcome_bind, Read.bind_error_iff] at h
    rcases h with h | ⟨d, _, h⟩
    · exact Document.fault_of_read h
    · exact fault_of_plan h

open World

/-- Planning reads a file and reports. -/
theorem after_planFile (x : Context) (file : Text) (requested : List Text) (w : World) :
    ∃ events, w.after (x.planFile file requested) =
      (x.planned w.files file requested, { w with events }) := by
  have load : (Host.readText (x.resolve file) : StateM World (Except FileFault Text)).run w =
    (w.files.readText (x.resolve file), w) := rfl
  unfold planned
  cases h : w.files.readText (x.resolve file) with
  | error cause =>
    rw [h] at load
    exact ⟨w.events, after_bind_error (after_attempt_error load _) _⟩
  | ok source =>
    rw [h] at load
    let started : World := { w with events := w.events ++ [.tangling (x.resolve file)] }
    refine ⟨started.events ++ (x.planSource (some file) source requested).events, ?_⟩
    rw [planFile, readSource, after_bind_ok (after_attempt_ok load _)]
    rw [after_bind_ok (after_lift _ _)]
    exact after_run started _

theorem dryRunReport_eq (actions : List Action) :
    dryRunReport actions = s!"Would perform {actions.length} actions:\n".toList ++
      actions.flatMap fun a => s!"  {a.describe}\n".toList := by
  simp [dryRunReport, toString, List.flatMap_map]

variable {x : Context} {w : World} {file : Text} {requested : List Text}

theorem after_tangle_error {e : Fault} (h : x.planned w.files file requested = .error e)
    (dryRun : Bool) :
    ∃ events, w.after (x.tangle file requested dryRun) = (.error e, { w with events }) := by
  obtain ⟨events, run⟩ := x.after_planFile file requested w
  rw [h] at run
  exact ⟨events, after_bind_error run _⟩

theorem after_tangle_dry {actions : List Action}
    (h : x.planned w.files file requested = .ok actions) :
    ∃ events, w.after (x.tangle file requested true) =
      (.ok (), { w with events, printed := w.printed ++ dryRunReport actions }) := by
  obtain ⟨events, run⟩ := x.after_planFile file requested w
  rw [h] at run
  exact ⟨events, after_bind_ok run _⟩

/-- Once the actions are known, a run performs them and records that it did. -/
theorem after_tangle_real {actions : List Action}
    (h : x.planned w.files file requested = .ok actions) :
    ∃ events final, Action.Performs { w with events } actions
        (w.after (x.tangle file requested false)).1 final ∧
      (w.after (x.tangle file requested false)).2.files = final.files ∧
      (w.after (x.tangle file requested false)).2.printed = final.printed := by
  obtain ⟨events, run⟩ := x.after_planFile file requested w
  rw [h] at run
  have performs := Action.performs_performAll { w with events } actions
  have later : w.after (x.tangle file requested false) =
      World.after { w with events } (Action.performAll actions >>= fun _ =>
        liftM (Host.record (.tangled actions.length) : StateM World Unit)) :=
    after_bind_ok run _
  rw [later]
  match done : World.after { w with events } (Action.performAll actions) with
  | (.error e, final) =>
    rw [done] at performs
    rw [after_bind_error done]
    exact ⟨events, final, performs, rfl, rfl⟩
  | (.ok (), final) =>
    rw [done] at performs
    rw [after_bind_ok done, after_lift]
    exact ⟨events, final, performs, rfl, rfl⟩

/-- A run that fails in anything but a file operation has changed no file and printed nothing, and a
dry run never changes a file. Both end with the same fault, or the dry run prints what the other
performs. -/
theorem tangle_unchanged (x : Context) (w : World) (file : Text) (requested : List Text) :
    (∀ dryRun e, (w.after (x.tangle file requested dryRun)).1 = .error e →
      (∀ cause, e ≠ .file cause) → e.isEarly = true ∧
        (w.after (x.tangle file requested dryRun)).2.files = w.files ∧
        (w.after (x.tangle file requested dryRun)).2.printed = w.printed) ∧
    (w.after (x.tangle file requested true)).2.files = w.files ∧
    match x.planned w.files file requested with
    | .error e => (∀ cause, e ≠ .file cause) ∧
        ∀ dryRun, (w.after (x.tangle file requested dryRun)).1 = .error e
    | .ok actions =>
      (w.after (x.tangle file requested true)).1 = .ok () ∧
      (w.after (x.tangle file requested true)).2.printed = w.printed ++
        (s!"Would perform {actions.length} actions:\n".toList ++
          actions.flatMap fun a => s!"  {a.describe}\n".toList) ∧
      ∃ events final, Action.Performs { w with events } actions
          (w.after (x.tangle file requested false)).1 final ∧
        (w.after (x.tangle file requested false)).2.files = final.files ∧
        (w.after (x.tangle file requested false)).2.printed = final.printed ∧
        ∀ e, (w.after (x.tangle file requested false)).1 = .error e → ∃ cause, e = .file cause := by
  cases h : x.planned w.files file requested with
  | error e =>
    have early := fault_of_planned h
    refine ⟨?_, ?_, Fault.ne_file_of_isEarly early, ?_⟩
    · intro dryRun e' failed _
      obtain ⟨events, run⟩ := after_tangle_error h dryRun
      rw [run] at failed ⊢
      obtain rfl := Except.error.inj failed
      exact ⟨early, rfl, rfl⟩
    · obtain ⟨events, run⟩ := after_tangle_error h true
      rw [run]
    · intro dryRun
      obtain ⟨events, run⟩ := after_tangle_error h dryRun
      rw [run]
  | ok actions =>
    obtain ⟨shown, dry⟩ := after_tangle_dry h
    obtain ⟨events, final, performs, files, printed⟩ := after_tangle_real h
    have refused : ∀ e, (w.after (x.tangle file requested false)).1 = .error e →
        ∃ cause, e = .file cause := fun e => performs.fault
    refine ⟨?_, by rw [dry], by rw [dry], ?_, events, final, performs, files, printed, refused⟩
    · intro dryRun e failed other
      cases dryRun with
      | true => simp [dry] at failed
      | false =>
        obtain ⟨cause, rfl⟩ := refused e failed
        exact absurd rfl (other cause)
    · rw [dry, ← dryRunReport_eq]

/-- The first of two requested chunks expands and the second refers to itself. The first alone can be
put out. -/
theorem tangle_unchanged_cyclic :
    let source := "@code a\n1\n@end\n@code b\n@<b>\n@end\n".toList
    let files := ({} : FileTree).place [['n']] (.file (.text source))
    let w : World := { files, printed := ['>'] }
    let x : Context := { base := ['/'] }
    (w.after (x.tangle ['n'] [['a'], ['b']] false)).1 = .error (.cyclic [['b'], ['b']]) ∧
    (∀ cause, Fault.cyclic [['b'], ['b']] ≠ .file cause) ∧
    (w.after (x.tangle ['n'] [['a'], ['b']] false)).2.files = w.files ∧
    (w.after (x.tangle ['n'] [['a'], ['b']] false)).2.printed = ['>'] ∧
    x.planned w.files ['n'] [['a']] = .ok [.print ['a'] ['1', '\n']] ∧
    (w.after (x.tangle ['n'] [['a']] true)).2.printed =
      ">Would perform 1 actions:\n  print 'a' to stdout\n".toList := by
  intro source files w x
  have load : w.files.readText (x.resolve ['n']) = .ok source := rfl
  have planned : x.planned w.files ['n'] [['a'], ['b']] = .error (.cyclic [['b'], ['b']]) := by
    rw [Context.planned, load]
    unfold x source
    cbv
  have both := (tangle_unchanged x w ['n'] [['a'], ['b']]).2.2
  rw [planned] at both
  have failed := both.2 false
  have kept := (tangle_unchanged x w ['n'] [['a'], ['b']]).1 false _ failed both.1
  have actions : x.planned w.files ['n'] [['a']] = .ok [.print ['a'] ['1', '\n']] := by
    rw [Context.planned, load]
    unfold x source
    cbv
  have dry := (tangle_unchanged x w ['n'] [['a']]).2.2
  rw [actions] at dry
  exact ⟨failed, both.1, kept.2.1, kept.2.2, actions, dry.2.1⟩

end Context

end Literate
