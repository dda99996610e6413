import Mathlib.Data.List.Pairwise
import NetBridge.Proofs.Board.Validation
import NetBridge.Proofs.Bridge.SelfCheck
import NetBridge.Proofs.Pad.Path

/-! # Allocated once

A platform makes the pads of a resource when it is first asked for them, remembers them, and
answers with them from then on. Signals that others add to the host in the meantime do not matter,
since an arena never hands out a key twice. -/
namespace NetBridge

open Host (Pad PadTree)

/-- What the board has to say about a request: a layout, or why there is none. -/
def Board.layout? (b : Board) (key : String × Option Nat) : Except PlatformError Layout :=
  match b.resource? key.1 key.2 with
  | none => .error (.unknownResource (logicalName key.1 key.2))
  | some resource =>
    match resource.layout with
    | .error e => .error (.board e)
    | .ok layout => .ok layout

namespace Platform

/-- The host signal of the leaf at the end of a field path. -/
def leafSignal (name : String) (p : List String × Pad) : Host.Signal :=
  ⟨pathName name p.1, .unsignedBits p.2.width⟩

/-- Each leaf has the signal that its path asks for. -/
def Labels (host : Host.Netlist) (name : String) (paths : List (List String × Pad)) : Prop :=
  ∀ p ∈ paths, host.signal? p.2.signal = some (leafSignal name p)

theorem Labels.extends {host later : Host.Netlist} {name : String}
    {paths : List (List String × Pad)} (h : Labels host name paths)
    (grown : host.signals.Extends later.signals) : Labels later name paths :=
  fun p hp => grown (h p hp)

mutual

theorem allocate_labels (name : String) : ∀ (layout : Layout) (host : Host.Netlist),
    Labels ((allocate name layout).run host).2 name ((allocate name layout).run host).1.paths
  | .leaf pad, host => by
    intro p hp
    obtain rfl := List.mem_singleton.mp hp
    exact Arena.get?_push_nextKey _ _
  | .group fields, host => allocateFields_labels name fields host

theorem allocateFields_labels (name : String) :
    ∀ (fields : List (String × Layout)) (host : Host.Netlist),
      Labels ((allocateFields name fields).run host).2 name
        (FieldTree.fieldPaths ((allocateFields name fields).run host).1)
  | [], _ => fun _ hp => nomatch hp
  | (field, layout) :: rest, host => by
    let made := (allocate s!"{name}_{field}" layout).run host
    have first : Labels made.2 s!"{name}_{field}" made.1.paths := allocate_labels _ layout host
    have grown := (allocateFields_handsOut name rest made.2).2.adds.grown
    intro p hp
    rcases List.mem_append.mp hp with hp | hp
    · obtain ⟨q, hq, rfl⟩ := List.mem_map.mp hp
      exact grown (first q hq)
    · exact allocateFields_labels name rest made.2 p hp

end

/-- A platform together with the host that it allocates in. -/
structure Site where
  platform : Platform
  host : Host.Netlist

/-- A request in the site that it meets. -/
structure Exchange where
  key : String × Option Nat
  before : Site

namespace Exchange

def answer (x : Exchange) : Except PlatformError PadTree :=
  (x.before.platform.request x.before.host x.key.1 x.key.2).map (·.1)

/-- The site afterwards. A request that fails has left it alone. -/
def after (x : Exchange) : Site :=
  match x.before.platform.request x.before.host x.key.1 x.key.2 with
  | .ok (_, platform, host) => ⟨platform, host⟩
  | .error _ => x.before

/-- Pads are remembered, refused by the board, or made. -/
theorem cases (x : Exchange) :
    (∃ pads, Table.get? x.before.platform.allocated x.key = some pads ∧ x.answer = .ok pads ∧
      x.after = x.before) ∨
    Table.get? x.before.platform.allocated x.key = none ∧
      ((∃ e, x.before.platform.board.layout? x.key = .error e ∧ x.answer = .error e ∧
        x.after = x.before) ∨
      ∃ layout, x.before.platform.board.layout? x.key = .ok layout ∧
        let made := (allocate (logicalName x.key.1 x.key.2) layout).run x.before.host
        x.answer = .ok made.1 ∧ x.after = ⟨{ x.before.platform with
          allocated := x.before.platform.allocated ++ [(x.key, made.1)] }, made.2⟩) := by
  obtain ⟨⟨name, index⟩, platform, host⟩ := x
  dsimp only [answer, after, request, Board.layout?]
  cases Table.get? platform.allocated (name, index) with
  | some pads => exact .inl ⟨pads, rfl, rfl, rfl⟩
  | none =>
    refine .inr ⟨rfl, ?_⟩
    cases hr : platform.board.resource? name index with
    | none => exact .inl ⟨_, rfl, rfl, rfl⟩
    | some resource =>
      dsimp only
      cases resource.layout with
      | error e => exact .inl ⟨_, rfl, rfl, rfl⟩
      | ok layout =>
        refine .inr ⟨layout, rfl, ?_⟩
        dsimp only
        rw [Board.logical_of_resource? hr]
        exact ⟨rfl, rfl⟩

theorem after_of_error {x : Exchange} {e : PlatformError} (h : x.answer = .error e) :
    x.after = x.before := by
  rcases x.cases with ⟨pads, -, answer, -⟩ | ⟨-, ⟨e', -, -, same⟩ | ⟨layout, -, answer, -⟩⟩
  · cases h.symm.trans answer
  · exact same
  · cases h.symm.trans answer

end Exchange

/-- The site remembers what it has answered, which is what the board says. The signals of all pads
are there, named after their paths, and none of them twice. -/
structure Remembers (board : Board) (log : List Exchange) (s : Site) : Prop where
  unaltered : s.platform.board = board
  once : s.platform.allocated.keys.Nodup
  laidOut : ∀ p ∈ s.platform.allocated, board.layout? p.1 = .ok (p.2.map Bridge.padShape)
  held : s.host.signals.Holds (s.platform.allocated.flatMap fun p => p.2.leaves.map (·.signal))
  labelled : ∀ p ∈ s.platform.allocated, Labels s.host (logicalName p.1.1 p.1.2) p.2.paths
  answered : ∀ x ∈ log, ∀ pads, x.answer = .ok pads →
    Table.get? s.platform.allocated x.key = some pads
  faithful : ∀ x ∈ log, x.answer.map (·.map Bridge.padShape) = board.layout? x.key

namespace Remembers

variable {board : Board} {log : List Exchange} {s : Site}

theorem start (board : Board) (host : Host.Netlist) : Remembers board [] ⟨{ board }, host⟩ where
  unaltered := rfl
  once := List.nodup_nil
  laidOut := by simp
  held := .nil _
  labelled := by simp
  answered := by simp
  faithful := by simp

/-- Nothing is forgotten while a host grows and files are added. -/
theorem elsewhere (h : Remembers board log s) {host : Host.Netlist} (sources : List String)
    (grown : s.host.signals.Extends host.signals) :
    Remembers board log ⟨{ s.platform with sources }, host⟩ :=
  { h with
    held := ⟨fun id hid => grown.contains (h.held.there id hid), h.held.nodup⟩
    labelled := fun p hp => (h.labelled p hp).extends grown }

/-- The answer to a request that leaves the site alone is remembered, or it is an error. -/
theorem unchanged (h : Remembers board log s) {x : Exchange} (same : x.after = s)
    (remembered : ∀ pads, x.answer = .ok pads → Table.get? s.platform.allocated x.key = some pads)
    (faithful : x.answer.map (·.map Bridge.padShape) = board.layout? x.key) :
    Remembers board (log ++ [x]) x.after := by
  rw [same]
  exact { h with
    answered := List.forall_mem_append.mpr ⟨h.answered, List.forall_mem_singleton.mpr remembered⟩
    faithful := List.forall_mem_append.mpr ⟨h.faithful, List.forall_mem_singleton.mpr faithful⟩ }

theorem request (h : Remembers board log s) (key : String × Option Nat) :
    Remembers board (log ++ [⟨key, s⟩]) (Exchange.after ⟨key, s⟩) := by
  rcases Exchange.cases ⟨key, s⟩ with ⟨pads, earlier, answer, same⟩ |
    ⟨new, ⟨e, refused, answer, same⟩ | ⟨layout, known, answer, made⟩⟩
  · refine h.unchanged same (fun pads' h' => ?_) ?_
    · cases answer.symm.trans h'
      exact earlier
    · rw [answer]
      exact (h.laidOut _ (Table.mem_of_get? earlier)).symm
  · refine h.unchanged same (fun pads' h' => ?_) ?_
    · cases answer.symm.trans h'
    · rw [answer]
      exact (h.unaltered ▸ refused).symm
  · dsimp only at new known answer made
    rw [h.unaltered] at known
    let name := logicalName key.1 key.2
    let pads := ((allocate name layout).run s.host).1
    obtain ⟨form, out⟩ := allocate_handsOut name layout s.host
    have grown := out.adds.grown
    have extended (k : String × Option Nat) (pads' : PadTree)
        (found : Table.get? s.platform.allocated k = some pads') :
        Table.get? (s.platform.allocated ++ [(key, pads)]) k = some pads' := by
      rw [Table.get?_append, found]
      rfl
    rw [made]
    exact {
      unaltered := h.unaltered
      once := by
        rw [Table.keys_append]
        refine List.nodup_append.mpr ⟨h.once, List.nodup_singleton _, ?_⟩
        rintro a ha b hb rfl
        obtain rfl := List.mem_singleton.mp hb
        exact Table.get?_eq_none_iff.mp new ha
      laidOut := List.forall_mem_append.mpr ⟨h.laidOut, List.forall_mem_singleton.mpr <| by
        rw [known]
        exact congrArg Except.ok form.symm⟩
      held := by
        rw [List.flatMap_append, List.flatMap_singleton]
        exact h.held.adds out.adds
      labelled := List.forall_mem_append.mpr
        ⟨fun p hp => (h.labelled p hp).extends grown,
          List.forall_mem_singleton.mpr (allocate_labels name layout s.host)⟩
      answered := List.forall_mem_append.mpr
        ⟨fun x hx pads' hpads => extended _ _ (h.answered x hx pads' hpads),
          List.forall_mem_singleton.mpr fun pads' hpads => by
            cases answer.symm.trans hpads
            rw [Table.get?_append, new]
            exact if_pos rfl⟩
      faithful := List.forall_mem_append.mpr ⟨h.faithful, List.forall_mem_singleton.mpr <| by
        rw [answer, known]
        exact congrArg Except.ok form⟩ }

/-- Signals of pads that were handed out for different keys are different. -/
theorem disjoint (h : Remembers board log s) {k l : String × Option Nat} {ps qs : PadTree}
    (hk : Table.get? s.platform.allocated k = some ps)
    (hl : Table.get? s.platform.allocated l = some qs) (apart : k ≠ l) :
    (ps.leaves.map (·.signal)).Disjoint (qs.leaves.map (·.signal)) := by
  have pairwise := (List.nodup_flatMap.mp h.held.nodup).2
  have symmetric : Std.Symm (Function.onFun List.Disjoint
      fun p : (String × Option Nat) × PadTree => p.2.leaves.map (·.signal)) :=
    ⟨fun _ _ => List.disjoint_symm⟩
  exact pairwise.forall (Table.mem_of_get? hk) (Table.mem_of_get? hl)
    fun same => apart (congrArg Prod.fst same)

end Remembers

/-- Requests to a platform that has not been asked before, in any order, with what was answered,
while others add signals to the host and files to the platform. -/
inductive Served (board : Board) (host : Host.Netlist) : List Exchange → Site → Prop
  | start : Served board host [] ⟨{ board }, host⟩
  | request {log : List Exchange} {s : Site} (key : String × Option Nat) :
    Served board host log s →
      Served board host (log ++ [⟨key, s⟩]) (Exchange.after ⟨key, s⟩)
  | elsewhere {log : List Exchange} {s : Site} {later : Host.Netlist} (sources : List String) :
    Served board host log s → s.host.signals.Extends later.signals →
      Served board host log ⟨{ s.platform with sources }, later⟩

namespace Served

variable {board : Board} {host : Host.Netlist} {log : List Exchange} {s : Site}

theorem remembers (h : Served board host log s) : Remembers board log s := by
  induction h with
  | start => exact .start board host
  | request key _ ih => exact ih.request key
  | elsewhere sources _ grown ih => exact ih.elsewhere sources grown

/-- Every request of a run comes after a run of its own. -/
theorem before (h : Served board host log s) {earlier later : List Exchange} {x : Exchange}
    (split : log = earlier ++ x :: later) : Served board host earlier x.before := by
  induction h generalizing later with
  | start => simp at split
  | @request log s key served ih =>
    rcases List.eq_nil_or_concat later with rfl | ⟨rest, last, rfl⟩
    · obtain ⟨rfl, last⟩ := List.append_inj' split rfl
      obtain rfl := List.singleton_inj.mp last
      exact served
    · rw [List.concat_eq_append, ← List.cons_append, ← List.append_assoc] at split
      exact ih (List.append_inj' split rfl).1
  | elsewhere sources served grown ih => exact ih split

/-- A key that was asked for before is answered as it was then. -/
theorem answer_eq (h : Served board host log s) {x y : Exchange} (hx : x ∈ log) (hy : y ∈ log)
    (same : x.key = y.key) : x.answer = y.answer := by
  have memory := h.remembers
  have said : x.answer.map (·.map Bridge.padShape) = y.answer.map (·.map Bridge.padShape) := by
    rw [memory.faithful x hx, memory.faithful y hy, same]
  cases hax : x.answer with
  | error e =>
    rw [hax] at said
    cases hay : y.answer with
    | error e' =>
      rw [hay] at said
      exact congrArg Except.error (Except.error.inj said)
    | ok pads => rw [hay] at said; cases said
  | ok pads =>
    cases hay : y.answer with
    | error e => rw [hax, hay] at said; cases said
    | ok pads' =>
      have found := memory.answered x hx pads hax
      rw [same, memory.answered y hy pads' hay] at found
      exact congrArg Except.ok (Option.some.inj found).symm

/-- And leaves the platform and the host alone. -/
theorem after_repeated (h : Served board host log s) {earlier later : List Exchange} {x : Exchange}
    (split : log = earlier ++ x :: later) (asked : x.key ∈ earlier.map (·.key)) :
    x.after = x.before := by
  obtain ⟨y, hy, same⟩ := List.mem_map.mp asked
  cases hay : y.answer with
  | error e =>
    have repeated : x.answer = y.answer :=
      h.answer_eq (by simp [split]) (by simp [split, hy]) same.symm
    exact Exchange.after_of_error (repeated.trans hay)
  | ok pads =>
    have found := (h.before split).remembers.answered y hy pads hay
    rcases x.cases with ⟨-, -, -, kept⟩ | ⟨new, -⟩
    · exact kept
    · rw [← same, found] at new
      cases new

section Build

variable {σ : Type} [Storage σ] {b : Build σ}

/-- A build asks its platform for pads, and whatever else it does only adds to the host and to the
files, unless somebody exchanges the platform. -/
theorem action (h : Served board host log ⟨b.platform, b.bridge.host⟩)
    {a : Build.Action σ} (keeps : a.KeepsSignals) (kept : ∀ change, a ≠ .changePlatform change) :
    ∃ more, Served board host (log ++ more) ⟨(a.apply b).platform, (a.apply b).bridge.host⟩ := by
  have spans := Bridge.Evolves.spans
  have grown := (spans.apply a b fun outside => keeps.evolves outside b).host
  -- Only a request is answered; for the others it is enough what they do to the files.
  have silent (sources : List String)
      (files : (a.apply b).platform = { b.platform with sources }) :
      ∃ more, Served board host (log ++ more) ⟨(a.apply b).platform, (a.apply b).bridge.host⟩ := by
    refine ⟨[], ?_⟩
    rw [List.append_nil, files]
    exact h.elsewhere sources grown
  have within {α : Type} {x : BridgeM α} (same : a.apply b = stateAfter (Build.onBridge x) b) :
      (a.apply b).platform = b.platform := by
    rw [same, Build.stateAfter_onBridge]
  cases a with
  | request name index direction rate =>
    rw [Build.Action.apply]
    rcases Build.request_cases name index direction rate b with
      same | ⟨pads, platform, made, granted, result⟩
    · refine ⟨[], ?_⟩
      rw [same, List.append_nil]
      exact h
    · have adapted := (spans.adapt spans.fresh s!"pad_{logicalName name index}" direction rate pads
        { b.bridge with host := made }).host
      have answered := h.request (name, index)
      rw [Exchange.after] at answered
      simp only [granted] at answered
      rw [result]
      exact ⟨_, answered.elsewhere platform.sources adapted⟩
  | finalize =>
    rw [Build.Action.apply] at silent
    have ends := Build.finalize_finalizes b
    rw [Build.Action.apply]
    generalize stateAfter Build.finalize b = s' at silent ends
    cases ends with
    | written => exact silent _ rfl
    | _ => exact silent b.platform.sources rfl
  | changePlatform change => exact absurd rfl (kept change)
  | changeGuest | changeHost | changeStorage => exact silent b.platform.sources rfl
  | _ => exact silent b.platform.sources (within rfl)

theorem run (h : Served board host log ⟨b.platform, b.bridge.host⟩)
    {actions : List (Build.Action σ)} (keeps : ∀ a ∈ actions, a.KeepsSignals)
    (kept : ∀ a ∈ actions, ∀ change, a ≠ .changePlatform change) :
    ∃ more, Served board host (log ++ more)
      ⟨(Build.run actions b).platform, (Build.run actions b).bridge.host⟩ := by
  induction actions generalizing b log with
  | nil =>
    refine ⟨[], ?_⟩
    rw [List.append_nil]
    exact h
  | cons a rest ih =>
    obtain ⟨keepsHere, keepsRest⟩ := List.forall_mem_cons.mp keeps
    obtain ⟨keptHere, keptRest⟩ := List.forall_mem_cons.mp kept
    obtain ⟨first, served⟩ := h.action keepsHere keptHere
    obtain ⟨others, served⟩ := ih served keepsRest keptRest
    exact ⟨first ++ others, by rwa [← List.append_assoc]⟩

end Build

end Served

/-- Pads are allocated once and never shared, whatever is asked of a platform and in whatever
order. What is answered depends on the key alone, in form and width on the layout that the board
has for it; what fails or is repeated changes nothing; no two leaves that are handed out have the
same signal; and the signals stay as they were made, named after the paths of their leaves. -/
theorem pads_are_allocated_once {board : Board} {host : Host.Netlist} {log : List Exchange}
    {s : Site} (served : Served board host log s) :
    (∀ x ∈ log, ∀ y ∈ log, x.key = y.key → x.answer = y.answer) ∧
    (∀ earlier x later, log = earlier ++ x :: later →
      x.key ∈ earlier.map (·.key) ∨ (∃ e, x.answer = .error e) → x.after = x.before) ∧
    (∀ x ∈ log, x.answer.map (·.map Bridge.padShape) = board.layout? x.key) ∧
    ∀ x ∈ log, ∀ pads, x.answer = .ok pads →
      (pads.leaves.map (·.signal)).Nodup ∧
      (∀ y ∈ log, x.key ≠ y.key → ∀ others, y.answer = .ok others →
        (pads.leaves.map (·.signal)).Disjoint (others.leaves.map (·.signal))) ∧
      Labels s.host (logicalName x.key.1 x.key.2) pads.paths := by
  have memory := served.remembers
  refine ⟨fun x hx y hy => served.answer_eq hx hy, fun earlier x later split => ?_,
    memory.faithful, fun x hx pads answer => ?_⟩
  · rintro (asked | ⟨e, failed⟩)
    · exact served.after_repeated split asked
    · exact Exchange.after_of_error failed
  · have found := memory.answered x hx pads answer
    have entry := Table.mem_of_get? found
    exact ⟨(List.nodup_flatMap.mp memory.held.nodup).1 _ entry,
      fun y hy apart others h => memory.disjoint found (memory.answered y hy others h) apart,
      memory.labelled _ entry⟩

/-- So it is in a build, whatever is done with it while it keeps its platform: the pads that have
been handed out have the form that the board has for them, and signals of their own. -/
theorem build_shares_no_pads {σ : Type} [Storage σ] {b : Build σ}
    (unasked : b.platform.allocated = []) {actions : List (Build.Action σ)}
    (keeps : ∀ a ∈ actions, a.KeepsSignals)
    (kept : ∀ a ∈ actions, ∀ change, a ≠ .changePlatform change) :
    let later := Build.run actions b
    ∀ key pads, Table.get? later.platform.allocated key = some pads →
      b.platform.board.layout? key = .ok (pads.map Bridge.padShape) ∧
      Labels later.bridge.host (logicalName key.1 key.2) pads.paths ∧
      (pads.leaves.map (·.signal)).Nodup ∧
      ∀ other others, Table.get? later.platform.allocated other = some others → key ≠ other →
        (pads.leaves.map (·.signal)).Disjoint (others.leaves.map (·.signal)) := by
  intro later key pads found
  have untouched : Served b.platform.board b.bridge.host [] ⟨b.platform, b.bridge.host⟩ := by
    have first : Served b.platform.board b.bridge.host []
        ⟨{ board := b.platform.board }, b.bridge.host⟩ := .start
    have site := first.elsewhere b.platform.sources (.refl _)
    rwa [← unasked] at site
  obtain ⟨log, served⟩ := untouched.run keeps kept
  have memory := served.remembers
  have entry := Table.mem_of_get? found
  exact ⟨memory.laidOut _ entry, memory.labelled _ entry,
    (List.nodup_flatMap.mp memory.held.nodup).1 _ entry,
    fun _ _ other apart => memory.disjoint found other apart⟩

def busAndLed : Board where
  resources := [
    ⟨"bus", none, .mk none false [("a", .mk (some 4) true []), ("b", .mk (some 1) false [])]⟩,
    ⟨"led", some 0, .mk (some 1) false []⟩]

def busFirst : Exchange := ⟨("bus", none), ⟨{ board := busAndLed }, { name := "top" }⟩⟩

/-- A pin that is not on the board, asked for after a clock has been made. -/
def unknownPin : Exchange :=
  ⟨("pin", none), ⟨busFirst.after.platform, (busFirst.after.host.addSignal "clk" .bit).2⟩⟩

def busAgain : Exchange := ⟨("bus", none), unknownPin.after⟩

def ledLast : Exchange := ⟨("led", some 0), busAgain.after⟩

theorem bus_is_allocated_once :
    Served busAndLed { name := "top" } [busFirst, unknownPin, busAgain, ledLast] ledLast.after ∧
    busFirst.answer = busAgain.answer ∧ busAgain.after = busAgain.before ∧
    unknownPin.after = unknownPin.before ∧ ∃ pads lone, busFirst.answer = .ok pads ∧
      ledLast.answer = .ok lone ∧
      (pads.leaves.map (·.signal)).Disjoint (lone.leaves.map (·.signal)) ∧
      ledLast.after.host.signal? ⟨0⟩ = some ⟨"bus_a", .unsignedBits 4⟩ := by
  have served : Served busAndLed { name := "top" } [busFirst, unknownPin, busAgain, ledLast]
      ledLast.after :=
    (((Served.start.request ("bus", none)).elsewhere [] (.push _ _)).request
      ("pin", none)).request ("bus", none) |>.request ("led", some 0)
  obtain ⟨same, still, -, leaves⟩ := pads_are_allocated_once served
  refine ⟨served, same _ (by simp) _ (by simp) rfl,
    still [busFirst, unknownPin] busAgain [ledLast] rfl (.inl (by decide)),
    still [busFirst] unknownPin [busAgain, ledLast] rfl (.inr ⟨_, rfl⟩), _, _, rfl, rfl, ?_, ?_⟩
  · exact (leaves busFirst (by simp) _ rfl).2.1 ledLast (by simp) (by decide) _ rfl
  · exact (leaves busFirst (by simp) _ rfl).2.2 (["a"], ⟨⟨0⟩, 4, true⟩) List.mem_cons_self

end Platform

end NetBridge
