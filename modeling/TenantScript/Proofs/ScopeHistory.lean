import Mathlib.Data.List.Basic
import Mathlib.Data.List.Forall2
import Mathlib.Data.List.Nodup
import Mathlib.Logic.Function.Basic
import TenantScript.Proofs.SharedScopes

/-!
Environments over one global scope, against the history of the calls that they have served. Main
statement: after any calls to any of them, a name means what was written last, in the innermost of
the open scopes that bind it; what an environment sees was written by itself or to the global scope.
-/

namespace TenantScript

/-- The global scope, or the local scope of `owner` that was opened after `number` others. -/
inductive ScopeId where
  | shared
  | own (owner : String) (number : Nat)
  deriving DecidableEq

/-- A value that was written to a name in a scope, and the environment that wrote it. -/
structure ScopeWrite where
  author : String
  scope : ScopeId
  name : Name
  value : Value

/-- What has happened to the environments with the given names, of which the global scope had the
bindings `bottom` at first: how many local scopes were opened, which of them each environment still
has open, the innermost first, and what was written, the latest first. -/
structure History where
  names : List String
  bottom : Scope
  opened : Nat
  stack : String → List ScopeId
  writes : List ScopeWrite

namespace History

/-- Before any call. -/
def start (bottom : Scope) (names : List String) : History := ⟨names, bottom, 0, fun _ => [], []⟩

/-- The scopes that an environment sees, from the innermost to the global one. -/
def chain (h : History) (who : String) : List ScopeId := h.stack who ++ [.shared]

/-- The value that was written last to a name in a scope. -/
def last? (h : History) (id : ScopeId) (name : Name) : Option Value :=
  ((h.writes.find? fun e => e.scope = id ∧ e.name = name).map (·.value)).or
    (if id = .shared then h.bottom.get? name else none)

/-- The innermost of some scopes in which a name is bound. -/
def innermost? (h : History) (name : Name) (ids : List ScopeId) : Option ScopeId :=
  ids.find? fun id => (h.last? id name).isSome

/-- What was written last to the innermost binding of a name that an environment sees. -/
def meaning (h : History) (who : String) (name : Name) : Option Value :=
  (h.innermost? name (h.chain who)).bind (h.last? · name)

/-- An environment opens a local scope. -/
def push (h : History) (who : String) : History :=
  { h with
    opened := h.opened + 1
    stack := Function.update h.stack who (.own who h.opened :: h.stack who) }

/-- An environment closes its innermost local scope. -/
def pop (h : History) (who : String) : History :=
  { h with stack := Function.update h.stack who (h.stack who).tail }

/-- A value is written. -/
def write (h : History) (e : ScopeWrite) : History := { h with writes := e :: h.writes }

/-- An environment writes to the innermost scope that binds a name, if there is one. -/
def assign (h : History) (who : String) (name : Name) (v : Value) : History :=
  match h.innermost? name (h.chain who) with
  | some id => h.write ⟨who, id, name, v⟩
  | none => h

/-- The history with one more call. A definition writes to the innermost scope. -/
def record (h : History) (who : String) (call : ScopeCall) : History :=
  if who ∈ h.names then
    match call with
    | .push => h.push who
    | .pop => h.pop who
    | .define name v => h.write ⟨who, (h.stack who).headD .shared, name, v⟩
    | .set name v => h.assign who name v
    | .lookup _ => h
  else h

/-- The history with some more calls. -/
def recordAll (h : History) (calls : List (String × ScopeCall)) : History :=
  calls.foldl (fun h call => h.record call.1 call.2) h

variable {h : History} {who other : String} {name : Name} {u v : Value} {id : ScopeId}
  {level : Nat} {e : ScopeWrite} {scope : Scope} {scopes : List Scope} {ids : List ScopeId}
  {env env' : Environment} {w : Workspace}

/-- What a call adds to a history: nothing, or one write by the environment that is called. -/
theorem writes_record (h : History) (who : String) (call : ScopeCall) :
    (h.record who call).writes = h.writes ∨ ∃ id name v,
      (h.record who call).writes = ⟨who, id, name, v⟩ :: h.writes ∧
        ((call = .define name v ∧ id = (h.stack who).headD .shared) ∨
          (call = .set name v ∧ h.innermost? name (h.chain who) = some id)) := by
  unfold record
  split
  · cases call with
    | push | pop | lookup => exact .inl rfl
    | define name v => exact .inr ⟨_, name, v, rfl, .inl ⟨rfl, rfl⟩⟩
    | set name v =>
      simp only [assign]
      cases hin : h.innermost? name (h.chain who) with
      | none => exact .inl rfl
      | some id => exact .inr ⟨id, name, v, rfl, .inr ⟨rfl, hin⟩⟩
  · exact .inl rfl

theorem record_same (h : History) (who : String) (call : ScopeCall) :
    (h.record who call).names = h.names ∧ (h.record who call).bottom = h.bottom := by
  unfold record
  split
  · cases call with
    | push | pop | define | lookup => exact ⟨rfl, rfl⟩
    | set name v =>
      simp only [assign]
      cases h.innermost? name (h.chain who) with
      | none => exact ⟨rfl, rfl⟩
      | some id => exact ⟨rfl, rfl⟩
  · exact ⟨rfl, rfl⟩

theorem recordAll_same (calls : List (String × ScopeCall)) (h : History) :
    (h.recordAll calls).names = h.names ∧ (h.recordAll calls).bottom = h.bottom := by
  induction calls generalizing h with
  | nil => exact ⟨rfl, rfl⟩
  | cons call calls ih =>
    have hsame := h.record_same call.1 call.2
    exact (ih (h.record call.1 call.2)).imp (·.trans hsame.1) (·.trans hsame.2)

theorem stack_push (h : History) (who other : String) : (h.push who).stack other =
    if other = who then .own who h.opened :: h.stack who else h.stack other :=
  Function.update_apply _ _ _ _

theorem stack_pop (h : History) (who other : String) : (h.pop who).stack other =
    if other = who then (h.stack who).tail else h.stack other :=
  Function.update_apply _ _ _ _

theorem last?_write (h : History) (e : ScopeWrite) (id : ScopeId) (name : Name) :
    (h.write e).last? id name =
      if e.scope = id ∧ e.name = name then some e.value else h.last? id name := by
  rw [last?, write, List.find?_cons]
  by_cases he : e.scope = id ∧ e.name = name
  · simp [he]
  · simp [he, last?]

/-- Writes elsewhere do not change what was written last. -/
theorem last?_of_append {h' : History} {new : List ScopeWrite} (hbottom : h'.bottom = h.bottom)
    (hwrites : h'.writes = new ++ h.writes) (hnew : ∀ e ∈ new, e.scope = id → e.name ≠ name) :
    h'.last? id name = h.last? id name := by
  have hnone : (new.find? fun e => e.scope = id ∧ e.name = name) = none := by
    refine List.find?_eq_none.2 fun e he heq => ?_
    obtain ⟨hscope, hname⟩ := of_decide_eq_true heq
    exact hnew e he hscope hname
  rw [last?, hwrites, List.find?_append, hnone, hbottom]
  rfl

/-! ### The scopes that are open -/

/-- Whether the scopes of a history are told apart: an environment has scopes of its own open, none
of them twice, and writes to scopes of its own or to the global one. -/
structure Sound (h : History) : Prop where
  own : ∀ who, ∀ id ∈ h.stack who, ∃ number < h.opened, id = .own who number
  nodup : ∀ who, (h.stack who).Nodup
  written : ∀ e ∈ h.writes, e.scope = .shared ∨ ∃ number < h.opened, e.scope = .own e.author number

theorem sound_start (bottom : Scope) (names : List String) : (start bottom names).Sound where
  own _ _ hid := nomatch hid
  nodup _ := .nil
  written _ he := nomatch he

theorem Sound.shared_notMem (hs : h.Sound) (who : String) : .shared ∉ h.stack who := fun hid => by
  obtain ⟨_, _, hne⟩ := hs.own who _ hid
  cases hne

theorem Sound.next_notMem (hs : h.Sound) (who owner : String) :
    .own owner h.opened ∉ h.stack who := fun hid => by
  obtain ⟨_, hlt, heq⟩ := hs.own who _ hid
  cases heq
  exact Nat.lt_irrefl _ hlt

theorem Sound.nodup_chain (hs : h.Sound) (who : String) : (h.chain who).Nodup :=
  List.nodup_append.2 ⟨hs.nodup who, by simp, fun id hid id' hid' heq =>
    hs.shared_notMem who (List.mem_singleton.1 hid' ▸ heq ▸ hid)⟩

/-- Local scopes of one environment are not seen by another. -/
theorem Sound.notMem_chain (hs : h.Sound) (hne : other ≠ who) (hid : id ∈ h.stack who) :
    id ∉ h.chain other := fun hid' => by
  obtain ⟨_, _, rfl⟩ := hs.own who _ hid
  rcases List.mem_append.1 hid' with hid' | hid'
  · obtain ⟨_, _, heq⟩ := hs.own other _ hid'
    cases heq
    exact hne rfl
  · cases List.mem_singleton.1 hid'

/-- What an environment sees was written by itself or to the global scope. -/
theorem Sound.author_eq (hs : h.Sound) (he : e ∈ h.writes) (hscope : e.scope ∈ h.chain who) :
    e.scope = .shared ∨ e.author = who := by
  rcases List.mem_append.1 hscope with hown | hshared
  · obtain ⟨_, _, heq⟩ := hs.own who _ hown
    rcases hs.written e he with hshared | ⟨_, _, hauthor⟩
    · exact .inl hshared
    · rw [heq] at hauthor
      cases hauthor
      exact .inr rfl
  · exact .inl (List.mem_singleton.1 hshared)

/-- Nothing has been written to a scope that is still to be opened. -/
theorem Sound.last?_next (hs : h.Sound) (who : String) (name : Name) :
    h.last? (.own who h.opened) name = none := by
  have hfind : (h.writes.find? fun e => e.scope = .own who h.opened ∧ e.name = name) = none := by
    refine List.find?_eq_none.2 fun e he heq => ?_
    obtain ⟨hscope, _⟩ := of_decide_eq_true heq
    rcases hs.written e he with hshared | ⟨number, hlt, hown⟩
    · cases hshared.symm.trans hscope
    · cases hown.symm.trans hscope
      exact Nat.lt_irrefl _ hlt
  rw [last?, hfind]
  rfl

theorem Sound.push (hs : h.Sound) (who : String) : (h.push who).Sound where
  own other id hid := by
    rw [stack_push] at hid
    have hold (who : String) (hid : id ∈ h.stack who) :
        ∃ number < h.opened + 1, id = .own who number := by
      obtain ⟨number, hlt, heq⟩ := hs.own who id hid
      exact ⟨number, Nat.lt_succ_of_lt hlt, heq⟩
    split at hid
    next heq =>
      subst heq
      rcases List.mem_cons.1 hid with rfl | hid
      · exact ⟨h.opened, Nat.lt_succ_self _, rfl⟩
      · exact hold other hid
    next => exact hold other hid
  nodup other := by
    rw [stack_push]
    split
    · exact List.nodup_cons.2 ⟨hs.next_notMem who who, hs.nodup who⟩
    · exact hs.nodup other
  written e he := (hs.written e he).imp_right fun ⟨number, hlt, heq⟩ =>
    ⟨number, Nat.lt_succ_of_lt hlt, heq⟩

theorem Sound.pop (hs : h.Sound) (who : String) : (h.pop who).Sound where
  own other id hid := by
    rw [stack_pop] at hid
    split at hid
    next heq => exact hs.own other id (heq ▸ List.mem_of_mem_tail hid)
    next => exact hs.own other id hid
  nodup other := by
    rw [stack_pop]
    split
    · exact (hs.nodup who).tail
    · exact hs.nodup other
  written := hs.written

theorem Sound.write (hs : h.Sound) (hscope : e.scope ∈ h.chain e.author) : (h.write e).Sound where
  own := hs.own
  nodup := hs.nodup
  written e' he' := by
    rcases List.mem_cons.1 he' with rfl | he'
    · rcases List.mem_append.1 hscope with hown | hshared
      · exact .inr (hs.own _ _ hown)
      · exact .inl (List.mem_singleton.1 hshared)
    · exact hs.written e' he'

/-! ### Scopes as finite maps -/

/-- Whether a scope has the bindings that were written last to the scope with an identity. -/
def Holds (h : History) (scope : Scope) (id : ScopeId) : Prop :=
  ∀ name, scope.get? name = h.last? id name

theorem Holds.write (hh : h.Holds scope e.scope) :
    (h.write e).Holds (scope.insert e.name e.value) e.scope := fun name => by
  rw [last?_write, SortedMap.get?_insert, hh name]
  simp only [true_and, eq_comm]

theorem Holds.write_of_ne (hh : h.Holds scope id) (hne : e.scope ≠ id) :
    (h.write e).Holds scope id := fun name => by
  rw [last?_write, if_neg fun heq => hne heq.1]
  exact hh name

theorem forall₂_write_of_notMem (hh : List.Forall₂ h.Holds scopes ids) (hid : e.scope ∉ ids) :
    List.Forall₂ (h.write e).Holds scopes ids := by
  induction hh with
  | nil => exact .nil
  | cons hscope _ ih =>
    obtain ⟨hne, hrest⟩ := not_or.1 (mt List.mem_cons.2 hid)
    exact .cons (hscope.write_of_ne hne) (ih hrest)

/-- Of scopes that are told apart, one write changes one. -/
theorem forall₂_write (hh : List.Forall₂ h.Holds scopes ids) (hids : ids.Nodup)
    (hid : ids[level]? = some e.scope) (hscope : scopes[level]? = some scope) :
    List.Forall₂ (h.write e).Holds (scopes.set level (scope.insert e.name e.value)) ids := by
  induction hh generalizing level with
  | nil => cases hid
  | @cons first id scopes ids hfirst hrest ih =>
    obtain ⟨hnot, hids⟩ := List.nodup_cons.1 hids
    cases level with
    | zero =>
      cases hid
      cases hscope
      exact .cons hfirst.write (forall₂_write_of_notMem hrest hnot)
    | succ level =>
      have hmem : e.scope ∈ ids := List.mem_of_getElem? hid
      exact .cons (hfirst.write_of_ne fun heq => hnot (heq ▸ hmem)) (ih hids hid hscope)

/-- The innermost binding among scopes is what was written last to it. -/
theorem find?_eq (hh : List.Forall₂ h.Holds scopes ids) (name : Name) :
    Environment.find? name scopes = (h.innermost? name ids).bind (h.last? · name) := by
  induction hh with
  | nil => rfl
  | @cons scope id _ _ hscope _ ih =>
    rw [Environment.find?, innermost?, List.find?_cons, hscope name, ih]
    cases hlast : h.last? id name with
    | none => rfl
    | some v => simp [hlast]

theorem innermost?_eq (hh : List.Forall₂ h.Holds scopes ids)
    (hlevel : Environment.InnermostAt scopes name level) :
    ∃ id, ids[level]? = some id ∧ h.innermost? name ids = some id := by
  induction hh generalizing level with
  | nil =>
    obtain ⟨_, hscope, _⟩ := hlevel.bound
    cases hscope
  | @cons scope id scopes ids hscope _ ih =>
    cases level with
    | zero =>
      obtain ⟨_, hget, hbound⟩ := hlevel.bound
      cases hget
      refine ⟨id, rfl, ?_⟩
      rw [innermost?, List.find?_cons, ← hscope name, hbound]
    | succ level =>
      have hnone := hlevel.inner 0 (Nat.succ_pos _) scope rfl
      have houter : Environment.InnermostAt scopes name level :=
        ⟨hlevel.bound, fun i hi => hlevel.inner (i + 1) (Nat.succ_lt_succ hi)⟩
      rw [innermost?, List.find?_cons, ← hscope name, hnone]
      exact ih houter

/-- Whether an environment has the scopes that the history says it sees. -/
def Describes (h : History) (env : Environment) (who : String) : Prop :=
  List.Forall₂ h.Holds env.scopes (h.chain who)

theorem Describes.lookup? (hh : h.Describes env who) (name : Name) :
    env.lookup? name = h.meaning who name := find?_eq hh name

/-- What an environment does not find is bound in none of the scopes that it sees. -/
theorem Describes.innermost?_eq_none (hh : h.Describes env who) (hnone : env.lookup? name = none) :
    h.innermost? name (h.chain who) = none := by
  rw [hh.lookup?, meaning] at hnone
  cases hin : h.innermost? name (h.chain who) with
  | none => rfl
  | some id =>
    have hbound := List.find?_some hin
    rw [hin, Option.bind_some] at hnone
    rw [hnone] at hbound
    cases hbound

theorem Describes.length (hh : h.Describes env who) : env.depth = (h.stack who).length := by
  have hlength := List.Forall₂.length_eq hh
  simp only [Environment.scopes, chain, List.length_append, List.length_singleton] at hlength
  exact Nat.succ.inj hlength

/-- The global scope has the bindings that were written last to it. -/
theorem Describes.globals (hh : h.Describes env who) : h.Holds env.globals .shared := by
  have hlast := List.forall₂_drop_append _ _ _ hh
  rw [← hh.length, Environment.scopes, Environment.depth, List.drop_left] at hlast
  exact (List.forall₂_cons.1 hlast).1

theorem Describes.push (hs : h.Sound) (hh : h.Describes env who) :
    (h.push who).Describes env.push who := by
  rw [Describes, chain, stack_push, if_pos rfl]
  exact .cons (fun name => (hs.last?_next who name).symm) hh

theorem Describes.pop (hh : h.Describes env who) : (h.pop who).Describes env.pop who := by
  have hlength := hh.length
  rw [Describes, chain] at hh ⊢
  rw [stack_pop, if_pos rfl]
  rcases env with ⟨_ | ⟨scope, outer⟩, globals⟩
  · rw [List.length_eq_zero_iff.1 hlength.symm] at hh ⊢
    exact hh
  · obtain ⟨id, ids, hids⟩ := List.exists_cons_of_length_eq_add_one hlength.symm
    rw [hids] at hh ⊢
    cases hh with
    | cons _ houter => exact houter

/-- A write to a scope that an environment sees. -/
theorem Describes.write (hs : h.Sound) (hh : h.Describes env who)
    (hid : (h.chain who)[level]? = some e.scope) (hb : env.BindsAt level e.name e.value env') :
    (h.write e).Describes env' who := by
  obtain ⟨scope, hscope, hscopes⟩ := hb
  rw [Describes, hscopes]
  exact forall₂_write hh (hs.nodup_chain who) hid hscope

/-! ### Runs -/

/-- Whether a workspace is as a history says. -/
structure Tracks (w : Workspace) (h : History) : Prop where
  shared : w.IsShared
  sound : h.Sound
  unknown : ∀ who ∉ h.names, w.environment? who = none
  known : ∀ who ∈ h.names, ∃ env, w.environment? who = some env ∧ h.Describes env who

theorem tracks_start (bottom : Scope) (names : List String) :
    Tracks (Workspace.sharing bottom names) (start bottom names) where
  shared := Workspace.isShared_sharing bottom names
  sound := sound_start bottom names
  unknown who hwho := (Workspace.environment?_sharing bottom names who).trans (if_neg hwho)
  known who hwho :=
    ⟨⟨[], bottom⟩, (Workspace.environment?_sharing bottom names who).trans (if_pos hwho),
      .cons (fun _ => rfl) .nil⟩

theorem Tracks.describes (ht : Tracks w h) (he : w.environment? who = some env) :
    who ∈ h.names ∧ h.Describes env who := by
  by_cases hwho : who ∈ h.names
  · obtain ⟨env', he', hh⟩ := ht.known who hwho
    cases he.symm.trans he'
    exact ⟨hwho, hh⟩
  · cases he.symm.trans (ht.unknown who hwho)

/-- An environment that opened or closed a local scope. -/
theorem Tracks.rescopes (ht : Tracks w h) {w' : Workspace} {h' : History}
    (hr : w.Rescopes who env w') (hw : w'.IsShared) (hs : h'.Sound) (hnames : h'.names = h.names)
    (hwho : who ∈ h.names) (hh : h'.Describes env who)
    (hothers : ∀ other ≠ who, ∀ env, h.Describes env other → h'.Describes env other) :
    Tracks w' h' where
  shared := hw
  sound := hs
  unknown other ho := by
    rw [hnames] at ho
    rw [hr.others other fun heq => ho (heq ▸ hwho)]
    exact ht.unknown other ho
  known other ho := by
    by_cases heq : other = who
    · exact heq ▸ ⟨env, hr.own, hh⟩
    · obtain ⟨env', he', hh'⟩ := ht.known other (hnames ▸ ho)
      exact ⟨env', (hr.others other heq).trans he', hothers other heq env' hh'⟩

theorem Tracks.push (ht : Tracks w h) (he : w.environment? who = some env) :
    Tracks (w.putBack who env.push) (h.push who) := by
  obtain ⟨hwho, hh⟩ := ht.describes he
  refine ht.rescopes (ht.shared.rescopes he rfl) (ht.shared.putBack who _) (ht.sound.push who) rfl
    hwho (hh.push ht.sound) fun other hne env' hh' => ?_
  rw [Describes, chain, stack_push, if_neg hne]
  exact hh'

theorem Tracks.pop (ht : Tracks w h) (he : w.environment? who = some env) :
    Tracks (w.putBack who env.pop) (h.pop who) := by
  obtain ⟨hwho, hh⟩ := ht.describes he
  refine ht.rescopes (ht.shared.rescopes he rfl) (ht.shared.putBack who _) (ht.sound.pop who) rfl
    hwho hh.pop fun other hne env' hh' => ?_
  rw [Describes, chain, stack_pop, if_neg hne]
  exact hh'

/-- A write to a scope that its author sees, at the same level in the environment and in the
history: to a local scope it concerns no other environment, to the global scope all of them. -/
theorem Tracks.write (ht : Tracks w h) (he : w.environment? e.author = some env)
    (hid : (h.chain e.author)[level]? = some e.scope)
    (hb : env.BindsAt level e.name e.value env') :
    Tracks (w.putBack e.author env') (h.write e) := by
  obtain ⟨hwho, hh⟩ := ht.describes he
  have hbinds := ht.shared.binds he hb
  have hown : (w.putBack e.author env').environment? e.author = some env' := by
    rw [ht.shared.environment?_putBack he, if_pos rfl]
  refine ⟨ht.shared.putBack _ _, ht.sound.write (List.mem_of_getElem? hid), fun other ho => ?_,
    fun other ho => ?_⟩
  · have hnone := ht.unknown other ho
    rw [ht.shared.environment?_putBack he, if_neg fun (heq : other = e.author) => ho (heq ▸ hwho),
      hnone]
    rfl
  · by_cases hne : other = e.author
    · subst hne
      exact ⟨env', hown, hh.write ht.sound hid hb⟩
    obtain ⟨o, hget, hho⟩ := ht.known other ho
    rcases Nat.lt_or_eq_of_le hb.level_le with hlocal | hglobal
    · refine ⟨o, (hbinds.others_of_local hlocal other hne).trans hget, ?_⟩
      rw [hh.length] at hlocal
      rw [chain, List.getElem?_append_left hlocal] at hid
      exact forall₂_write_of_notMem hho (ht.sound.notMem_chain hne (List.mem_of_getElem? hid))
    · have hother := hbinds.others_of_global hglobal other hne
      rw [hget] at hother
      refine ⟨_, hother, ?_⟩
      have hshared : e.scope = .shared := by
        rw [hglobal, hh.length, chain, List.getElem?_concat_length] at hid
        exact (Option.some.inj hid).symm
      refine hho.write ht.sound ?_ (o.bindsAt_depth e.name e.value)
      rw [hho.length, chain, List.getElem?_concat_length, hshared]

/-- One call. -/
theorem Tracks.serve (ht : Tracks w h) (who : String) (call : ScopeCall) :
    Tracks (w.serve who call).2 (h.record who call) := by
  by_cases hwho : who ∈ h.names
  · obtain ⟨env, he, hh⟩ := ht.known who hwho
    rw [Workspace.serve_of_environment? he]
    unfold record
    rw [if_pos hwho]
    cases call with
    | push => exact ht.push he
    | pop => exact ht.pop he
    | lookup name =>
      have hsame := ht.shared.putBack_self he
      rw [Environment.serve, hsame]
      exact ht
    | define name v =>
      have hid : (h.chain who)[0]? = some ((h.stack who).headD .shared) := by
        rw [chain]
        cases h.stack who with
        | nil => rfl
        | cons => rfl
      exact ht.write (e := ⟨who, _, name, v⟩) he hid (env.bindsAt_define name v)
    | set name v =>
      simp only [Environment.serve, assign]
      cases hset : env.set? name v with
      | none =>
        simp only [hh.innermost?_eq_none (Environment.set?_eq_none_iff.1 hset)]
        rw [ht.shared.putBack_self he]
        exact ht
      | some env' =>
        obtain ⟨level, hlevel, hb⟩ := Environment.innermostAt_of_set? hset
        obtain ⟨id, hid, hin⟩ := innermost?_eq hh hlevel
        simp only [hin]
        exact ht.write (e := ⟨who, id, name, v⟩) he hid hb
  · rw [Workspace.serve, ht.unknown who hwho]
    unfold record
    rw [if_neg hwho]
    exact ht

theorem Tracks.serveAll (ht : Tracks w h) (calls : List (String × ScopeCall)) :
    Tracks (w.serveAll calls) (h.recordAll calls) := by
  induction calls generalizing w h with
  | nil => exact ht
  | cons call calls ih => exact ih (ht.serve call.1 call.2)

/-- A name that is shadowed is not bound innermost in the global scope. -/
theorem Describes.innermost?_ne_shared {d : Nat} (hs : h.Sound) (hh : h.Describes env who)
    (hshadows : env.Shadows d name) : h.innermost? name (h.chain who) ≠ some .shared := by
  intro hin
  cases hset : env.set? name .nil with
  | none => cases hin.symm.trans (hh.innermost?_eq_none (Environment.set?_eq_none_iff.1 hset))
  | some env' =>
    obtain ⟨level, hlevel, _⟩ := Environment.innermostAt_of_set? hset
    obtain ⟨id, hid, hin'⟩ := innermost?_eq hh hlevel
    cases hin.symm.trans hin'
    have hlt : level < (h.stack who).length :=
      hh.length ▸ Nat.lt_of_le_of_lt (hshadows.level_le hlevel) hshadows.lt_depth
    rw [chain, List.getElem?_append_left hlt] at hid
    exact hs.shared_notMem who (List.mem_of_getElem? hid)

/-- Whether an environment, `env` at first and now `env'` in a workspace, has kept what it shadows,
and between two histories was not the one to write the global binding of the name. -/
structure Kept (who : String) (name : Name) (d : Nat) (env : Environment) (h : History) (d' : Nat)
    (env' : Environment) (w' : Workspace) (h' : History) : Prop where
  found : w'.environment? who = some env'
  keeps : Environment.Keeps name d env d' env'
  writes : ∃ new, h'.writes = new ++ h.writes ∧
    ∀ e ∈ new, e.scope = .shared → e.name = name → e.author ≠ who

theorem Kept.trans {d d₁ d₂ : Nat} {env₁ env₂ : Environment} {w₁ w₂ : Workspace} {h₁ h₂ : History}
    (hk : Kept who name d env h d₁ env₁ w₁ h₁) (hk' : Kept who name d₁ env₁ h₁ d₂ env₂ w₂ h₂) :
    Kept who name d env h d₂ env₂ w₂ h₂ := by
  obtain ⟨new, hwrites, hnew⟩ := hk.writes
  obtain ⟨new', hwrites', hnew'⟩ := hk'.writes
  refine ⟨hk'.found, hk.keeps.trans hk'.keeps, new' ++ new, ?_, fun e he => ?_⟩
  · rw [hwrites', hwrites, List.append_assoc]
  · exact (List.mem_append.1 he).elim (hnew' e) (hnew e)

variable {d d' : Nat}

theorem Tracks.kept_of_self (ht : Tracks w h) (he : w.environment? who = some env)
    (hshadows : env.Shadows d name) (call : ScopeCall)
    (hkeeps : Environment.Keeps name d env d' (env.serve call).2) :
    Kept who name d env h d' (env.serve call).2 (w.serve who call).2 (h.record who call) := by
  refine ⟨ht.shared.environment?_serve_self he call, hkeeps, ?_⟩
  obtain ⟨_, hh⟩ := ht.describes he
  rcases h.writes_record who call with hsame | ⟨id, name', v, hwrites, hcall⟩
  · exact ⟨[], hsame, fun _ he => nomatch he⟩
  refine ⟨[⟨who, id, name', v⟩], hwrites, fun e he hshared hname => ?_⟩
  cases List.mem_singleton.1 he
  cases hshared
  cases hname
  rcases hcall with ⟨_, hhead⟩ | ⟨_, hin⟩
  · have hdepth := hshadows.lt_depth
    rw [hh.length] at hdepth
    obtain ⟨id, ids, hids⟩ := List.exists_cons_of_length_pos (Nat.zero_lt_of_lt hdepth)
    rw [hids, List.headD_cons] at hhead
    exact absurd (hids ▸ hhead ▸ List.mem_cons_self) (ht.sound.shared_notMem who)
  · exact absurd hin (hh.innermost?_ne_shared ht.sound hshadows)

theorem Tracks.kept_of_other (ht : Tracks w h) (he : w.environment? who = some env)
    (hshadows : env.Shadows d name) (hne : other ≠ who) (call : ScopeCall) :
    ∃ env', Kept who name d env h d env' (w.serve other call).2 (h.record other call) := by
  obtain ⟨globals, he'⟩ := ht.shared.environment?_serve_other he hne call
  refine ⟨_, he', ⟨hshadows, rfl⟩, ?_⟩
  rcases h.writes_record other call with hsame | ⟨id, name', v, hwrites, _⟩
  · exact ⟨[], hsame, fun _ he => nomatch he⟩
  · refine ⟨[⟨other, id, name', v⟩], hwrites, fun e he _ _ => ?_⟩
    cases List.mem_singleton.1 he
    exact hne

/-- While a scope that binds a name is open, the bindings that it shadows are kept. -/
theorem Tracks.kept {calls : List (String × ScopeCall)} (ht : Tracks w h)
    (hcalls : Workspace.Within who d calls) (he : w.environment? who = some env)
    (hshadows : env.Shadows d name) :
    ∃ env', Kept who name d env h 0 env' (w.serveAll calls) (h.recordAll calls) := by
  induction hcalls generalizing w h env with
  | done => exact ⟨env, he, ⟨hshadows, rfl⟩, [], rfl, fun _ he => nomatch he⟩
  | push _ ih =>
    have hstep := ht.kept_of_self he hshadows .push hshadows.push
    obtain ⟨env', hrest⟩ := ih (ht.serve _ _) hstep.found hstep.keeps.shadows
    exact ⟨env', hstep.trans hrest⟩
  | pop _ ih =>
    have hstep := ht.kept_of_self he hshadows .pop hshadows.pop
    obtain ⟨env', hrest⟩ := ih (ht.serve _ _) hstep.found hstep.keeps.shadows
    exact ⟨env', hstep.trans hrest⟩
  | stay hpush hpop _ ih =>
    have hstep := ht.kept_of_self he hshadows _ (hshadows.serve hpush hpop)
    obtain ⟨env', hrest⟩ := ih (ht.serve _ _) hstep.found hstep.keeps.shadows
    exact ⟨env', hstep.trans hrest⟩
  | @other _ _ call _ hne _ ih =>
    obtain ⟨_, hstep⟩ := ht.kept_of_other he hshadows hne call
    obtain ⟨env', hrest⟩ := ih (ht.serve _ _) hstep.found hstep.keeps.shadows
    exact ⟨env', hstep.trans hrest⟩

/-- When a scope that binds a name is closed, the bindings that it shadowed are as they were, but
for the global one if another environment has written it. -/
theorem Tracks.restores {calls : List (String × ScopeCall)} (ht : Tracks w h)
    (he : w.environment? who = some env) (hshadows : env.Shadows 0 name)
    (hcalls : Workspace.Within who 0 calls) : ∃ env' new,
      ((w.serveAll calls).serve who .pop).2.environment? who = some env' ∧
      (h.recordAll calls).writes = new ++ h.writes ∧
      (∀ e ∈ new, e.scope = .shared → e.name = name → e.author ≠ who) ∧
      env'.locals.map (SortedMap.get? · name) = env.pop.locals.map (SortedMap.get? · name) ∧
      ((∀ e ∈ new, e.scope = .shared → e.name ≠ name) →
        env'.bindings name = env.pop.bindings name) := by
  obtain ⟨env₁, hkept⟩ := ht.kept hcalls he hshadows
  obtain ⟨new, hwrites, hnew⟩ := hkept.writes
  have ht₁ := ht.serveAll calls
  have hlocals : env₁.pop.locals.map (SortedMap.get? · name) =
      env.pop.locals.map (SortedMap.get? · name) := by
    have hfurther := hkept.keeps.further
    simp only [Environment.further, Nat.zero_add, List.drop_one] at hfurther
    exact hfurther
  refine ⟨env₁.pop, new, ht₁.shared.environment?_serve_self hkept.found .pop, hwrites, hnew,
    hlocals, fun hnone => ?_⟩
  have hglobal : env₁.globals.get? name = env.globals.get? name := by
    rw [(ht₁.describes hkept.found).2.globals, (ht.describes he).2.globals,
      last?_of_append (h.recordAll_same calls).2 hwrites hnone]
  rw [Environment.bindings, Environment.bindings, Environment.scopes, Environment.scopes,
    List.map_append, List.map_append, hlocals]
  exact congrArg _ (congrArg (· :: []) hglobal)

end History

/-- Whether the environments of a workspace are stacks of finite maps over one bottom, with the
bindings that a history says. -/
structure Workspace.Refines (names : List String) (w : Workspace) (h : History) : Prop where
  known : ∀ who ∈ names, ∃ env, w.environment? who = some env
  unknown : ∀ who ∉ names, ∀ call, w.serve who call = (none, w)
  /-- A name means what was written last to its innermost binding. -/
  lookup : ∀ who ∈ names, ∀ name,
    w.serve who (.lookup name) = (some (.found (h.meaning who name)), w)
  /-- What an environment sees was written by itself or to the global scope. -/
  author : ∀ who, ∀ e ∈ h.writes, e.scope ∈ h.chain who → e.scope = .shared ∨ e.author = who
  /-- Assigning to a bound name overwrites its innermost binding. -/
  set_bound : ∀ who env name u v, w.environment? who = some env → env.lookup? name = some u →
    ∃ level w', Environment.InnermostAt env.scopes name level ∧
      w.serve who (.set name v) = (some (.overwritten true), w') ∧
      w.Binds who env level name v w'
  set_unbound : ∀ who env name v, w.environment? who = some env → env.lookup? name = none →
    w.serve who (.set name v) = (some (.overwritten false), w)
  /-- A definition binds the name in the innermost scope. -/
  define : ∀ who env name v, w.environment? who = some env →
    ∃ w', w.serve who (.define name v) = (some .done, w') ∧ w.Binds who env 0 name v w'
  push : ∀ who env, w.environment? who = some env →
    ∃ w', w.serve who .push = (some .done, w') ∧ w.Rescopes who env.push w'
  pop : ∀ who env, w.environment? who = some env →
    ∃ w', w.serve who .pop = (some .done, w') ∧ w.Rescopes who env.pop w'
  pop_bottom : ∀ who env, w.environment? who = some env → env.locals = [] →
    w.serve who .pop = (some .done, w)
  /-- When a scope that binds a name is closed, the bindings that it shadowed are as they were, but
  for the global one if another environment has written it. -/
  restores : ∀ who env name calls, w.environment? who = some env → env.Shadows 0 name →
    Within who 0 calls → ∃ env' new,
      ((w.serveAll calls).serve who .pop).2.environment? who = some env' ∧
      (h.recordAll calls).writes = new ++ h.writes ∧
      (∀ e ∈ new, e.scope = .shared → e.name = name → e.author ≠ who) ∧
      env'.locals.map (SortedMap.get? · name) = env.pop.locals.map (SortedMap.get? · name) ∧
      ((∀ e ∈ new, e.scope = .shared → e.name ≠ name) →
        env'.bindings name = env.pop.bindings name)

theorem History.Tracks.refines {w : Workspace} {h : History} (ht : History.Tracks w h) :
    w.Refines h.names h where
  known who hwho := by
    obtain ⟨env, he, _⟩ := ht.known who hwho
    exact ⟨env, he⟩
  unknown who hwho call := by rw [Workspace.serve, ht.unknown who hwho]
  lookup who hwho name := by
    obtain ⟨env, he, hh⟩ := ht.known who hwho
    rw [Workspace.serve_of_environment? he, Environment.serve, ht.shared.putBack_self he,
      hh.lookup?]
  author who e he hscope := ht.sound.author_eq he hscope
  set_bound who env name u v he hlookup := by
    obtain ⟨env', hset⟩ := Environment.exists_set?_of_lookup? v hlookup
    obtain ⟨level, hlevel, hb⟩ := Environment.innermostAt_of_set? hset
    refine ⟨level, w.putBack who env', hlevel, ?_, ht.shared.binds he hb⟩
    rw [Workspace.serve_of_environment? he, Environment.serve, hset]
  set_unbound who env name v he hlookup := by
    rw [Workspace.serve_of_environment? he, Environment.serve,
      Environment.set?_eq_none_iff.2 hlookup, ht.shared.putBack_self he]
  define who env name v he :=
    ⟨_, Workspace.serve_of_environment? he _, ht.shared.binds he (env.bindsAt_define name v)⟩
  push who env he := ⟨_, Workspace.serve_of_environment? he _, ht.shared.rescopes he rfl⟩
  pop who env he := ⟨_, Workspace.serve_of_environment? he _, ht.shared.rescopes he rfl⟩
  pop_bottom who env he hlocals := by
    have hpop : env.pop = env := by rw [Environment.pop, hlocals, List.tail_nil, ← hlocals]
    rw [Workspace.serve_of_environment? he, Environment.serve, hpop, ht.shared.putBack_self he]
  restores who env name calls he hshadows hcalls := ht.restores he hshadows hcalls

/-- Environments over one global scope are stacks of finite maps over one bottom: after any calls to
any of them, each has the bindings that the history of the calls says. -/
theorem environments_refine_stacks (globals : Scope) (names : List String)
    (calls : List (String × ScopeCall)) :
    ((Workspace.sharing globals names).serveAll calls).Refines names
      ((History.start globals names).recordAll calls) := by
  have hrefines := ((History.tracks_start globals names).serveAll calls).refines
  have hnames : ((History.start globals names).recordAll calls).names = names :=
    (History.recordAll_same calls _).1
  rw [hnames] at hrefines
  exact hrefines

-- What is shadowed comes back with what another environment assigned to it meanwhile.
example : (((Workspace.sharing .empty ["a", "b"]).serveAll [("a", .define "x" (.int 1)),
    ("a", .push), ("a", .define "x" (.int 2)), ("b", .set "x" (.int 3)), ("a", .pop)]).serve "a"
      (.lookup "x")).1 = some (.found (some (.int 3))) := by decide +kernel

end TenantScript
