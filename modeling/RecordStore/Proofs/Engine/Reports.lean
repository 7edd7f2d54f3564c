import RecordStore.Proofs.Engine.Ledger
import RecordStore.Proofs.Engine.Origin
import RecordStore.Proofs.Log.Dimming
/-!
# Reports have no part in what an engine does

Every operation is put together from reports, so it is dimmed to the same operation on an engine
whose switch for the reports of plans is changed by the dimming (`Session.dims_perform`). So is a
whole life, from the reading of a configuration file on (`Origin.dims_run`).
-/

namespace RecordStore

open Log

variable {R S : Type} {d : Dimming}

/-! ## The switch for plans -/

def Config.mapPlans (f : Bool → Bool) (c : Config) : Config :=
  { c with logPlans := f c.logPlans }

def Snapshot.mapPlans (f : Bool → Bool) (v : Snapshot R) : Snapshot R :=
  { v with logPlans := f v.logPlans }

def Engine.mapPlans (f : Bool → Bool) (e : Engine R) : Engine R :=
  { e with config := e.config.mapPlans f }

def Session.mapPlans (f : Bool → Bool) (s : Session R) : Session R where
  engine := s.engine.mapPlans f
  views := s.views.map (Snapshot.mapPlans f)

/-! ## Snapshots -/

namespace Snapshot

variable (v : Snapshot R)

theorem execute_eq (q : Query R) (sink : Sink R S) (s : S) :
    v.execute q sink s =
      reportIf v.logPlans .queryPlanned
          (planFields (.ofPlan (v.plan (q.normalized v.primaryKey)) (q.normalized v.primaryKey))) >>=
        fun _ => report .queryExecuted
            [("cost", toString (v.plan (q.normalized v.primaryKey)).cost)] >>=
          fun _ => pure
            (sink.close ((v.plan (q.normalized v.primaryKey)).execute (q.normalized v.primaryKey) sink s),
              (v.plan (q.normalized v.primaryKey)).isUnion) := by
  unfold execute reportIf
  cases v.logPlans <;> rfl

theorem dims_execute (q : Query R) (sink : Sink R S) (s : S) :
    d.Dims id (v.execute q sink s) ((v.mapPlans d.plans).execute q sink s) := by
  rw [execute_eq, execute_eq]
  apply (Dimming.Dims.reportIf _ _).bind
  intro _
  exact (Dimming.Dims.report .queryExecuted _ (by decide)).andReturn fun _ => rfl

theorem dims_select (q : Query R) (sink : Sink R S) (s : S) :
    d.Dims id (v.select q sink s) ((v.mapPlans d.plans).select q sink s) :=
  (v.dims_execute q sink s).andReturn fun _ => rfl

theorem dims_answer (question : Question R) :
    d.Dims id (v.answer question) ((v.mapPlans d.plans).answer question) := by
  cases question with
  | find key => exact .pure id _
  | findRecord record => exact .pure id _
  | size => exact .pure id _
  | select q => exact (v.dims_select q .collect {}).andReturn fun _ => rfl
  | explain q => exact .pure id _

end Snapshot

/-! ## Engines -/

namespace Engine

variable (e : Engine R)

theorem dims_register (ix : Index R) :
    d.Dims (mapPlans d.plans) (e.register ix) ((e.mapPlans d.plans).register ix) :=
  (Dimming.Dims.report .indexAdded _ (by decide)).andReturn fun _ => rfl

theorem dims_snapshot :
    d.Dims (Snapshot.mapPlans d.plans) e.snapshot (e.mapPlans d.plans).snapshot :=
  (Dimming.Dims.report .snapshotTaken _ (by decide)).andReturn fun _ => rfl

theorem dims_find (key : Key) :
    d.Dims (Prod.map id (mapPlans d.plans)) (e.find key) ((e.mapPlans d.plans).find key) :=
  (Dimming.Dims.report .recordFound _ (by decide)).andReturn fun _ => rfl

theorem dims_select (q : Query R) (sink : Sink R S) (s : S) :
    d.Dims (Prod.map id (mapPlans d.plans)) (e.select q sink s)
      ((e.mapPlans d.plans).select q sink s) :=
  (e.view.dims_execute q sink s).andReturn fun _ => rfl

theorem dims_put (record : R) :
    d.Dims (Prod.map id (mapPlans d.plans)) (e.put record) ((e.mapPlans d.plans).put record) :=
  (Dimming.Dims.report .recordPut _ (by decide)).andReturn fun _ => rfl

theorem dims_remove (record : R) :
    d.Dims (Prod.map id (mapPlans d.plans)) (e.remove record)
      ((e.mapPlans d.plans).remove record) := by
  have hfind : (e.mapPlans d.plans).index.find? ((e.mapPlans d.plans).primaryKey.get record)
      (e.mapPlans d.plans).state = e.index.find? (e.primaryKey.get record) e.state := rfl
  unfold remove
  dsimp only
  rw [hfind]
  cases e.index.find? (e.primaryKey.get record) e.state with
  | none => exact .pure (Prod.map id (mapPlans d.plans)) _
  | some stored =>
    exact (Dimming.Dims.report .recordRemoved _ (by decide)).andReturn fun _ => rfl

theorem dims_removeAll (q : Query R) :
    d.Dims (Prod.map id (mapPlans d.plans)) (e.removeAll q)
      ((e.mapPlans d.plans).removeAll q) :=
  (Dimming.Dims.report .removeAll _ (by decide)).andReturn fun _ => rfl

theorem dims_answer (question : Question R) :
    d.Dims (Prod.map id (mapPlans d.plans)) (e.answer question)
      ((e.mapPlans d.plans).answer question) := by
  cases question with
  | find key => exact (e.dims_find key).andReturn fun _ => rfl
  | findRecord record =>
    exact (e.dims_find (e.primaryKey.get record)).andReturn fun _ => rfl
  | size => exact .pure (Prod.map id (mapPlans d.plans)) _
  | select q =>
    exact (e.dims_select q .collect {}).andReturn fun _ => rfl
  | explain q => exact .pure (Prod.map id (mapPlans d.plans)) _

end Engine

/-! ## Sessions -/

namespace Session

theorem dims_perform (s : Session R) (op : Operation R) :
    d.Dims (Prod.map id (mapPlans d.plans)) (s.perform op) ((s.mapPlans d.plans).perform op) := by
  cases op with
  | put record =>
    exact (s.engine.dims_put record).andReturn fun _ => rfl
  | remove record =>
    exact (s.engine.dims_remove record).andReturn fun _ => rfl
  | removeAll q =>
    exact (s.engine.dims_removeAll q).andReturn fun _ => rfl
  | addIndex p =>
    exact (s.engine.dims_register _).andReturn fun _ => rfl
  | addCompositeIndex properties =>
    exact (s.engine.dims_register _).andReturn fun _ => rfl
  | snapshot =>
    apply s.engine.dims_snapshot.andReturn
    intro v
    have hviews : (s.views ++ [v]).map (Snapshot.mapPlans d.plans) =
      s.views.map (Snapshot.mapPlans d.plans) ++ [v.mapPlans d.plans] := List.map_append
    exact Prod.ext rfl (congrArg (Session.mk (s.engine.mapPlans d.plans)) hviews)
  | ask question =>
    exact (s.engine.dims_answer question).andReturn fun _ => rfl
  | askView view question =>
    have hview : (s.mapPlans d.plans).views[view]? =
      s.views[view]?.map (Snapshot.mapPlans d.plans) := List.getElem?_map
    unfold perform
    dsimp only
    rw [hview]
    cases s.views[view]? with
    | none => exact .pure (Prod.map id (mapPlans d.plans)) _
    | some v => exact (v.dims_answer question).andReturn fun _ => rfl

theorem dims_run (s : Session R) (ops : List (Operation R)) :
    d.Dims (Prod.map id (mapPlans d.plans)) (s.run ops) ((s.mapPlans d.plans).run ops) := by
  induction ops generalizing s with
  | nil => exact .pure (Prod.map id (mapPlans d.plans)) _
  | cons op ops ih =>
    -- What comes after the first operation starts from a dimmed session again.
    apply (s.dims_perform op).bind
    intro performed
    apply (ih performed.2).bind
    intro life
    exact .pure (Prod.map id (mapPlans d.plans)) _

end Session

/-! ## Whole lives -/

theorem Config.dims_load {path : String} {file file' : FileContent}
    (h : ofFile path file' = (ofFile path file).map (mapPlans d.plans)) :
    d.Dims (Except.map (mapPlans d.plans)) (load path file) (load path file') := by
  unfold load
  rw [h]
  cases ofFile path file with
  | error error =>
    exact (Dimming.Dims.report .configRejected _ (by decide)).andReturn fun _ => rfl
  | ok config => exact (Dimming.Dims.report .configLoaded _ (by decide)).andReturn fun _ => rfl

namespace Engine

theorem dims_create (pk : Property R) (config : Config) :
    d.Dims (mapPlans d.plans) (create pk config) (create pk (config.mapPlans d.plans)) :=
  (Dimming.Dims.report .engineCreated _ (by decide)).andReturn fun _ => rfl

theorem dims_ofConfig (resolve : String → Option (Property R)) (config : Config) :
    d.Dims (Except.map (mapPlans d.plans)) (ofConfig resolve config)
      (ofConfig resolve (config.mapPlans d.plans)) := by
  have hresolved : resolveConfig resolve (config.mapPlans d.plans) = resolveConfig resolve config :=
    rfl
  unfold ofConfig
  rw [hresolved]
  cases resolveConfig resolve config with
  | error v => exact .pure (Except.map (mapPlans d.plans)) _
  | ok resolved =>
    apply (dims_create resolved.1 config).bind
    intro e
    exact (Dimming.Dims.foldlM (fun e properties => e.dims_register _) resolved.2 e).andReturn
      fun _ => rfl

end Engine

namespace Origin

/-- Whether an origin is another one with a function applied to the switch for the reports of plans. -/
inductive Replanned (f : Bool → Bool) : Origin R → Origin R → Prop
  | created (pk : Property R) (config : Config) :
    Replanned f (.created pk config) (.created pk (config.mapPlans f))
  | configured (resolve : String → Option (Property R)) (config : Config) :
    Replanned f (.configured resolve config) (.configured resolve (config.mapPlans f))
  | loaded (resolve : String → Option (Property R)) {path : String} {file file' : Config.FileContent}
    (h : Config.ofFile path file' = (Config.ofFile path file).map (Config.mapPlans f)) :
    Replanned f (.loaded resolve path file) (.loaded resolve path file')

theorem replanned_id (o : Origin R) : Replanned id o o := by
  cases o with
  | created pk config => exact .created pk config
  | configured resolve config => exact .configured resolve config
  | loaded resolve path file =>
    apply Replanned.loaded resolve
    cases Config.ofFile path file <;> rfl

variable {o o' : Origin R}

theorem dims_make (h : Replanned d.plans o o') :
    d.Dims (Except.map (Engine.mapPlans d.plans)) o.make o'.make := by
  cases h with
  | created pk config => exact (Engine.dims_create pk config).andReturn fun _ => rfl
  | configured resolve config => exact Engine.dims_ofConfig resolve config
  | loaded resolve h =>
    apply (Config.dims_load h).bind
    intro read
    cases read with
    | error error => exact .pure (Except.map (Engine.mapPlans d.plans)) _
    | ok config => exact Engine.dims_ofConfig resolve config

theorem dims_run (h : Replanned d.plans o o') (ops : List (Operation R)) :
    d.Dims (Except.map (Prod.map id (Session.mapPlans d.plans))) (o.run ops) (o'.run ops) := by
  apply (dims_make h).bind
  intro made
  cases made with
  | error error => exact .pure (Except.map (Prod.map id (Session.mapPlans d.plans))) _
  | ok e => exact (Session.dims_run { engine := e } ops).andReturn fun _ => rfl

/-- What is recorded has no part in what an engine does, whatever its origin: the threshold only
picks from what the finest one records, and to switch the reports of plans off loses these and
changes nothing else. The same goes for a select into any sink, of an engine or of a snapshot. -/
theorem run_passive (o : Origin R) (ops : List (Operation R)) :
    let off : Bool → Bool := fun _ => false
    (o.run ops).Passive ∧
      (∀ o' : Origin R, Replanned off o o' →
        (o.run ops).LosesPlans (Except.map (Prod.map id (Session.mapPlans off))) (o'.run ops)) ∧
      (∀ {S : Type} (e : Engine R) (q : Query R) (sink : Sink R S) (s : S),
        (e.select q sink s).Passive ∧
          (e.select q sink s).LosesPlans (Prod.map id (Engine.mapPlans off))
            ((e.mapPlans off).select q sink s)) ∧
      ∀ {S : Type} (v : Snapshot R) (q : Query R) (sink : Sink R S) (s : S),
        (v.select q sink s).Passive ∧
          (v.select q sink s).LosesPlans id ((v.mapPlans off).select q sink s) := by
  intro off
  refine ⟨?_, ?_, ?_, ?_⟩
  · apply Logged.passive_of_dims (f := Except.map (Prod.map id (Session.mapPlans id)))
    intro t
    exact dims_run (d := .coarser t) (replanned_id o) ops
  · intro o' h
    apply Logged.losesPlans_of_dims
    intro t
    exact dims_run (d := .unplanned t) h ops
  · intro S e q sink s
    constructor
    · apply Logged.passive_of_dims (f := Prod.map id (Engine.mapPlans id))
      intro t
      exact e.dims_select (d := .coarser t) q sink s
    · apply Logged.losesPlans_of_dims
      intro t
      exact e.dims_select (d := .unplanned t) q sink s
  · intro S v q sink s
    constructor
    · apply Logged.passive_of_dims (f := id)
      intro t
      exact v.dims_select (d := .coarser t) q sink s
    · apply Logged.losesPlans_of_dims
      intro t
      exact v.dims_select (d := .unplanned t) q sink s

/-- A configuration file that asks for an index on amounts, and for reports of plans or not. -/
def amountsFile (logPlans : String) : Config.FileContent :=
  .bytes (String.toUTF8 ("\x7b\"indexes\": [\"amount\"], \"log_plans\": " ++ logPlans ++ "\x7d"))

/-- An engine over amounts that is made from such a file. -/
def amountsLoaded (logPlans : String) : Origin (Int × Int) :=
  .loaded Run.named "amounts.json" (amountsFile logPlans)

theorem amountsLoaded_losesPlans :
    let ops := Run.amounts.operations ++ [.ask (.select {})]
    let off : Bool → Bool := fun _ => false
    Replanned off (amountsLoaded "true") (amountsLoaded "false") ∧
      ((amountsLoaded "true").run ops).LosesPlans (Except.map (Prod.map id (Session.mapPlans off)))
        ((amountsLoaded "false").run ops) := by
  intro ops off
  have hreplanned : Replanned off (amountsLoaded "true") (amountsLoaded "false") :=
    .loaded _ (by decide +kernel)
  exact ⟨hreplanned, (run_passive (amountsLoaded "true") ops).2.1 _ hreplanned⟩

end Origin

end RecordStore
