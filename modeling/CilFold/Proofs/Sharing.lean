/-
  One log for many routines.

  A pass can be applied to many routines at once: each routine has a worker of its own, and all
  workers append to one log. A `Pool` is the state of such a run. In a step one of the workers,
  any of them, makes one step of its script; so a sequence of steps is a schedule, and every way
  in which the workers can interleave is one.

  The invariant (`Pool.Serves`) looks at one worker at a time. If it went on alone, on a log that
  has no events but those of its routine, it would come to what applying the pass to the routine
  alone comes to. A step of the worker keeps this because its event goes to both logs, a step of
  another one because its event names another routine. At the end nothing is left to do, and
  what the workers have is what the lone applications leave.
-/
import Mathlib.Logic.Relation
import CilFold.Proofs.Script

namespace CilFold

open PassM Relation

variable {α : Type} {es events : List Event}

/-! ## The events of a routine -/

namespace EventLog

variable {t u : Token}

theorem ofMethod_append (es new : List Event) (t : Token) :
    ofMethod ⟨es ++ new⟩ t = ofMethod ⟨es⟩ t ++ ofMethod ⟨new⟩ t := List.filter_append _ _

theorem ofMethod_eq_self (h : ∀ e ∈ es, e.method = some t) : ofMethod ⟨es⟩ t = es :=
  List.filter_eq_self.mpr fun e he => beq_iff_eq.mpr (h e he)

theorem ofMethod_eq_nil (h : ∀ e ∈ es, e.method = some t) (hne : t ≠ u) : ofMethod ⟨es⟩ u = [] := by
  refine List.filter_eq_nil_iff.mpr fun e he => ?_
  rw [h e he, beq_iff_eq, Option.some_inj]
  exact hne

end EventLog

/-! ## Workers -/

/-- A routine, and what is left of the script for it. -/
structure Worker where
  routine : Routine
  script : Script Unit

namespace Worker

variable {v v' : Worker} {w : Work}

/-- A step of a worker, with the events that it appends. -/
inductive Step : Worker → List Event → Worker → Prop where
  | look {r : Routine} {next : Routine → Script Unit} : Step ⟨r, .look next⟩ [] ⟨r, next r⟩
  | put {r s : Routine} {next : Script Unit} : Step ⟨r, .put s next⟩ [] ⟨s, next⟩
  | append {r : Routine} {e : Event} {next : Script Unit} :
      Step ⟨r, .append e next⟩ [e] ⟨r, next⟩

/-- What the worker comes to if it goes on alone, with a log of the given events. -/
def outcome (v : Worker) (events : List Event) : EStateM.Result Fault Work Unit :=
  v.script.denote { routine := v.routine, log := ⟨events⟩ }

/-- Alone, a step brings the worker no further than it would get anyway. -/
theorem Step.outcome_eq (h : v.Step es v') (events : List Event) :
    v'.outcome (events ++ es) = v.outcome events := by
  cases h with
  | look =>
    rw [List.append_nil]
    rfl
  | put =>
    rw [List.append_nil]
    rfl
  | append => rfl

/-- A worker that is not refused is at its end or can make a step. -/
theorem exists_step (h : v.outcome events = .ok () w) :
    v.script = .done () ∨ ∃ es v', v.Step es v' := by
  obtain ⟨r, script⟩ := v
  cases script with
  | done _ => exact .inl rfl
  | refused fault => cases h
  | look next => exact .inr ⟨_, _, .look⟩
  | put s next => exact .inr ⟨_, _, .put⟩
  | append e next => exact .inr ⟨_, _, .append⟩

end Worker

/-- The number of steps that are left. -/
def Script.cost : Script α → Routine → Nat
  | done _, _ => 0
  | refused _, _ => 0
  | look next, r => (next r).cost r + 1
  | put s next, _ => next.cost s + 1
  | append _ next, r => next.cost r + 1

def Worker.cost (v : Worker) : Nat := v.script.cost v.routine

theorem Worker.Step.cost_eq {v v' : Worker} (h : v.Step es v') : v.cost = v'.cost + 1 := by
  cases h <;> rfl

/-! ## Pools -/

/-- Workers with one log for all of them. -/
structure Pool where
  workers : List Worker
  log : EventLog

namespace Pool

variable {p q : Pool} {m : PassM Unit} {script : Script Unit} {routines : List Routine}
  {log : EventLog}

/-- One of the workers makes a step. Its event goes to the end of the log at once. -/
inductive Step : Pool → Pool → Prop where
  | ofWorker {p : Pool} {i : Nat} {v v' : Worker} {es : List Event} :
      p.workers[i]? = some v → v.Step es v' →
      Step p ⟨p.workers.set i v', ⟨p.log.events ++ es⟩⟩

/-- All workers have come to the end of their scripts. -/
def Finished (p : Pool) : Prop := ∀ v ∈ p.workers, v.script = .done ()

/-- A worker with the script for each of the routines. -/
def start (script : Script Unit) (routines : List Routine) (log : EventLog) : Pool :=
  ⟨routines.map fun r => ⟨r, script⟩, log⟩

def cost (p : Pool) : Nat := p.workers.foldr (fun v rest => v.cost + rest) 0

theorem Step.cost_eq (h : Step p q) : q.cost + 1 = p.cost := by
  cases h with | @ofWorker i v v' new hv hstep => ?_
  obtain ⟨workers, log⟩ := p
  show (workers.set i v').foldr (fun v rest => v.cost + rest) 0 + 1 =
    workers.foldr (fun v rest => v.cost + rest) 0
  have hless := hstep.cost_eq
  induction workers generalizing i with
  | nil => cases hv
  | cons x workers ih =>
    cases i with
    | zero =>
      cases hv
      rw [List.set_cons_zero, List.foldr_cons, List.foldr_cons]
      omega
    | succ i =>
      have hrest := ih hv
      rw [List.set_cons_succ, List.foldr_cons, List.foldr_cons]
      omega

/-- The log has grown by events of the routines, and each worker would come, alone and on those of
    the events that name its routine, to what the computation makes of the routine. -/
def Serves (m : PassM Unit) (routines : List Routine) (log : EventLog) (p : Pool) : Prop :=
  p.workers.length = routines.length ∧ ∃ es, p.log.events = log.events ++ es ∧
    (∀ e ∈ es, ∃ r ∈ routines, e.method = some r.token) ∧
    ∀ (i : Nat) (r : Routine) (v : Worker), routines[i]? = some r → p.workers[i]? = some v →
      v.outcome (EventLog.ofMethod ⟨es⟩ r.token) = m { routine := r }

theorem serves_start (hscript : script.denote = m) :
    Serves m routines log (start script routines log) := by
  refine ⟨List.length_map _, [], (List.append_nil _).symm, fun _ he => absurd he List.not_mem_nil,
    fun i r v hr hv => ?_⟩
  rw [start, List.getElem?_map, hr] at hv
  cases hv
  rw [← hscript]
  rfl

theorem token_ne (htokens : (routines.map Routine.token).Nodup) {i j : Nat} {r r' : Routine}
    (hr : routines[i]? = some r) (hr' : routines[j]? = some r') (hij : i ≠ j) :
    r.token ≠ r'.token := by
  intro hsame
  have htoken : (routines.map Routine.token)[i]? = some r.token := by
    rw [List.getElem?_map, hr, Option.map_some]
  have htoken' : (routines.map Routine.token)[j]? = some r.token := by
    rw [List.getElem?_map, hr', Option.map_some, hsame]
  obtain ⟨hlt, _⟩ := List.getElem?_eq_some_iff.mp htoken
  exact hij ((List.getElem?_inj hlt htokens).mp (htoken.trans htoken'.symm))

/-- The computation is not refused on the routine, and names the routine in all its events. -/
def Succeeds (m : PassM Unit) (r : Routine) : Prop :=
  ∃ w, m { routine := r } = .ok () w ∧ ∀ e ∈ w.log.events, e.method = some r.token

section

variable (htokens : (routines.map Routine.token).Nodup)
  (hok : ∀ r ∈ routines, Succeeds m r)
include htokens hok

theorem Serves.step (h : Serves m routines log p) (hstep : Step p q) : Serves m routines log q := by
  obtain ⟨hlen, es, hlog, hnamed, hserves⟩ := h
  cases hstep with | @ofWorker i v v' new hv hstep => ?_
  obtain ⟨hi, _⟩ := List.getElem?_eq_some_iff.mp hv
  obtain ⟨r, hr⟩ : ∃ r, routines[i]? = some r := ⟨_, List.getElem?_eq_getElem (hlen ▸ hi)⟩
  have houtcome : v'.outcome (EventLog.ofMethod ⟨es⟩ r.token ++ new) = m { routine := r } :=
    (hstep.outcome_eq _).trans (hserves i r v hr hv)
  -- the new event is one of those that the lone computation comes to
  have hnew : ∀ e ∈ new, e.method = some r.token := by
    obtain ⟨w, hw, hmarked⟩ := hok r (List.mem_of_getElem? hr)
    obtain ⟨more, hmore⟩ := Script.exists_events (houtcome.trans hw)
    intro e he
    refine hmarked e ?_
    rw [hmore]
    exact List.mem_append_left _ (List.mem_append_right _ he)
  refine ⟨(List.length_set ..).trans hlen, es ++ new, ?_, fun e he => ?_, fun j r' x hr' hx => ?_⟩
  · show p.log.events ++ new = _
    rw [hlog, List.append_assoc]
  · rcases List.mem_append.mp he with he | he
    · exact hnamed e he
    · exact ⟨r, List.mem_of_getElem? hr, hnew e he⟩
  · rw [EventLog.ofMethod_append]
    by_cases hij : i = j
    · subst hij
      cases hr.symm.trans hr'
      rw [List.getElem?_set_self hi] at hx
      cases hx
      rw [EventLog.ofMethod_eq_self hnew, houtcome]
    · rw [List.getElem?_set_ne hij] at hx
      rw [EventLog.ofMethod_eq_nil hnew (token_ne htokens hr hr' hij), List.append_nil]
      exact hserves j r' x hr' hx

theorem Serves.run (h : Serves m routines log p) (hrun : ReflTransGen Step p q) :
    Serves m routines log q := by
  induction hrun with
  | refl => exact h
  | tail _ hstep ih => exact ih.step htokens hok hstep

omit htokens in
/-- No worker gets stuck. -/
theorem Serves.finished_or_step (h : Serves m routines log p) : p.Finished ∨ ∃ q, Step p q := by
  obtain ⟨hlen, es, _, _, hserves⟩ := h
  by_cases hfinished : p.Finished
  · exact .inl hfinished
  · right
    unfold Finished at hfinished
    push Not at hfinished
    obtain ⟨v, hv, hnot⟩ := hfinished
    obtain ⟨i, hi⟩ := List.mem_iff_getElem?.mp hv
    obtain ⟨hlt, _⟩ := List.getElem?_eq_some_iff.mp hi
    obtain ⟨r, hr⟩ : ∃ r, routines[i]? = some r := ⟨_, List.getElem?_eq_getElem (hlen ▸ hlt)⟩
    obtain ⟨w, hw, _⟩ := hok r (List.mem_of_getElem? hr)
    rcases Worker.exists_step ((hserves i r v hr hi).trans hw) with hdone | ⟨new, v', hstep⟩
    · exact absurd hdone hnot
    · exact ⟨_, .ofWorker hi hstep⟩

/-- Every schedule can be brought to its end. -/
theorem Serves.exists_finished (h : Serves m routines log p) :
    ∃ q, ReflTransGen Step p q ∧ q.Finished := by
  -- each step leaves one step less to do
  induction hcost : p.cost generalizing p with
  | zero =>
    rcases h.finished_or_step hok with hfinished | ⟨q, hstep⟩
    · exact ⟨p, .refl, hfinished⟩
    · have hless := hstep.cost_eq
      omega
  | succ n ih =>
    rcases h.finished_or_step hok with hfinished | ⟨q, hstep⟩
    · exact ⟨p, .refl, hfinished⟩
    · have hless := hstep.cost_eq
      obtain ⟨s, hrun, hfinished⟩ := ih (h.step htokens hok hstep) (by omega)
      exact ⟨s, .head hstep hrun, hfinished⟩

end

/-- At the end, each worker has what the computation makes of its routine alone, and the events
    that name the routine are those of the lone computation. -/
theorem Serves.of_finished (h : Serves m routines log p) (hfinished : p.Finished) :
    p.workers.length = routines.length ∧ ∃ es, p.log.events = log.events ++ es ∧
      (∀ e ∈ es, ∃ r ∈ routines, e.method = some r.token) ∧
      ∀ (i : Nat) (r : Routine) (v : Worker), routines[i]? = some r → p.workers[i]? = some v →
        m { routine := r } = .ok ()
          { routine := v.routine, log := ⟨EventLog.ofMethod ⟨es⟩ r.token⟩ } := by
  obtain ⟨hlen, es, hlog, hnamed, hserves⟩ := h
  refine ⟨hlen, es, hlog, hnamed, fun i r v hr hv => ?_⟩
  rw [← hserves i r v hr hv, Worker.outcome, hfinished v (List.mem_of_getElem? hv)]
  rfl

end Pool

/-! ## Passes -/

namespace Pass

variable {pass : Pass} {settings : Settings}

theorem applyAlone_eq {r : Routine} {w : Work}
    (h : apply pass { settings, inliner := Inliner.singleUse } { routine := r } = .ok () w) :
    applyAlone pass settings r = (w.routine, .ok w.log.events) := by
  unfold applyAlone
  rw [h]

/-- Where a pass succeeds, all its events name the routine. -/
theorem apply_succeeds (hpass : pass ∈ all) {r : Routine}
    (hok : ∃ es, (applyAlone pass settings r).2 = .ok es) :
    Pool.Succeeds (apply pass { settings, inliner := Inliner.singleUse }) r := by
  obtain ⟨es, hes⟩ := hok
  obtain ⟨s, hs, hmarked⟩ := apply_scripted (t := r.token) hpass settings
  unfold applyAlone at hes
  split at hes
  · next w hw =>
    refine ⟨w, hw, ?_⟩
    rw [← hs] at hw
    exact hmarked.events rfl (fun _ he => absurd he List.not_mem_nil) hw
  · cases hes

/-- Applying a pass to many routines at once agrees with applying it to each of them alone, under
    every schedule. The routines have different tokens, and the pass succeeds on each of them.
    The pass can be cut into steps that do not look at the log; and in whatever way it is cut so,
    workers with one log can always go on to the end of their work, and wherever they are at the
    end, each routine is what it becomes alone, all events that have come to the log name one of
    the routines, and those that name a routine are, in their order, the events of the pass on
    that routine alone. -/
theorem shared_log_agrees (hpass : pass ∈ all) (settings : Settings) (routines : List Routine)
    (htokens : (routines.map Routine.token).Nodup)
    (hok : ∀ r ∈ routines, ∃ es, (applyAlone pass settings r).2 = .ok es) :
    let application := apply pass { settings, inliner := Inliner.singleUse }
    (∃ script : Script Unit, script.denote = application) ∧
    ∀ (script : Script Unit) (log : EventLog) (p : Pool), script.denote = application →
      ReflTransGen Pool.Step (Pool.start script routines log) p →
      (∃ q, ReflTransGen Pool.Step p q ∧ q.Finished) ∧
      (p.Finished → p.workers.map Worker.routine = (applyAll pass settings routines).1 ∧
        ∃ es, p.log.events = log.events ++ es ∧
          (∀ e ∈ es, ∃ r ∈ routines, e.method = some r.token) ∧ ∀ r ∈ routines,
          (applyAlone pass settings r).2 = .ok (EventLog.ofMethod ⟨es⟩ r.token)) := by
  intro application
  have hsucceeds : ∀ r ∈ routines, Pool.Succeeds application r := fun r hr =>
    apply_succeeds hpass (hok r hr)
  refine ⟨?_, fun script log p hscript hrun => ?_⟩
  · obtain ⟨s, hs, _⟩ := apply_scripted (t := ⟨0⟩) hpass settings
    exact ⟨s, hs⟩
  · have hserves := (Pool.serves_start hscript).run htokens hsucceeds hrun
    refine ⟨hserves.exists_finished htokens hsucceeds, fun hfinished => ?_⟩
    obtain ⟨hlen, es, hlog, hnamed, halone⟩ := hserves.of_finished hfinished
    refine ⟨List.ext_getElem? fun i => ?_, es, hlog, hnamed, fun r hr => ?_⟩
    · show _ = ((routines.map (applyAlone pass settings)).map Prod.fst)[i]?
      rw [List.map_map, List.getElem?_map, List.getElem?_map]
      cases hi : routines[i]? with
      | none =>
        rw [List.getElem?_eq_none (hlen ▸ List.getElem?_eq_none_iff.mp hi)]
        rfl
      | some r =>
        obtain ⟨hlt, _⟩ := List.getElem?_eq_some_iff.mp hi
        have hv := List.getElem?_eq_getElem (hlen ▸ hlt)
        rw [hv, Option.map_some, Option.map_some, Function.comp, applyAlone_eq (halone i r _ hi hv)]
    · obtain ⟨i, hi⟩ := List.mem_iff_getElem?.mp hr
      obtain ⟨hlt, _⟩ := List.getElem?_eq_some_iff.mp hi
      rw [applyAlone_eq (halone i r _ hi (List.getElem?_eq_getElem (hlen ▸ hlt)))]

namespace Sample

/-- A routine whose one instruction is a self-store. -/
def copy (token : Token) (name : String) : Routine :=
  [ Primitive.declare .localSlot 0 "x" .void, .newBlock ⟨0⟩ .controlFlow,
    .load ⟨0⟩, .create (.stloc ⟨0⟩) [⟨2⟩], .push ⟨1⟩ ⟨3⟩].foldl Primitive.after
      (Routine.empty token name)

/-- Two routines with self-stores. -/
def copies : List Routine := [copy ⟨0x06000001⟩ "Draw", copy ⟨0x06000002⟩ "Paint"]

end Sample

set_option maxRecDepth 8000 in
/-- Two workers remove the self-stores of two routines at once, and each routine finds its own
    removal in the log. -/
theorem shared_log_of_two_copies :
    (Sample.copies.map Routine.token).Nodup ∧ ∃ (script : Script Unit) (p : Pool),
      script.denote = apply SelfStore.pass { settings := {}, inliner := Inliner.singleUse } ∧
      ReflTransGen Pool.Step (Pool.start script Sample.copies {}) p ∧ p.Finished ∧
      p.workers.map (·.routine.instructions ⟨1⟩) = [[], []] ∧
      ∀ r ∈ Sample.copies, (p.log.ofMethod r.token).map Event.kind =
        [.passStarted, .instructionRemoved, .passCompleted] := by
  have htokens : (Sample.copies.map Routine.token).Nodup := by decide +kernel
  have hpass : SelfStore.pass ∈ all := List.mem_cons_of_mem _ List.mem_cons_self
  have hkinds : ∀ r ∈ Sample.copies,
      (applyAlone SelfStore.pass {} r).2.toOption.map (List.map Event.kind) =
        some [.passStarted, .instructionRemoved, .passCompleted] := by decide +kernel
  have hok : ∀ r ∈ Sample.copies, ∃ es, (applyAlone SelfStore.pass {} r).2 = .ok es := by
    intro r hr
    have hsome := hkinds r hr
    cases halone : (applyAlone SelfStore.pass {} r).2 with
    | ok es => exact ⟨es, rfl⟩
    | error fault =>
      rw [halone] at hsome
      cases hsome
  obtain ⟨⟨script, hscript⟩, hall⟩ := shared_log_agrees hpass {} Sample.copies htokens hok
  obtain ⟨⟨p, hrun, hfinished⟩, _⟩ := hall script {} _ hscript .refl
  obtain ⟨_, hend⟩ := hall script {} p hscript hrun
  obtain ⟨hroutines, es, hlog, _, hevents⟩ := hend hfinished
  refine ⟨htokens, script, p, hscript, hrun, hfinished, ?_, fun r hr => ?_⟩
  · have hleft : (applyAll SelfStore.pass {} Sample.copies).1.map (·.instructions ⟨1⟩) =
        [[], []] := by decide +kernel
    rw [← hroutines, List.map_map] at hleft
    exact hleft
  · have hkind := hkinds r hr
    rw [hevents r hr] at hkind
    have hlog : p.log = ⟨es⟩ := congrArg EventLog.mk hlog
    rw [hlog]
    exact Option.some.inj hkind

end Pass

end CilFold
