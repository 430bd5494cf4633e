import Bonanza.Evaluation.Unblocking

/-! # Handling of cycles

Unless a cache lookup can be disabled, the first key in the list of blocked keys is the one reported
to be cyclic. It need not lie on a cycle, it need not block any other key, and the loop over the
keys that it blocks panics if there is more than one of them (`handlesCycles_iff`).
-/

namespace Bonanza.Evaluation

open List Function Option Fallible SharedSlice

theorem ValueState.cases_of_unevaluated {Key Reference : Type}
    {valueState : ValueState Key Reference} (unevaluated : valueState.isEvaluated = false) :
    valueState = initialMessage ∨
      valueState ≠ initialMessage ∧ valueState.disableCacheLookup = .ok none := by
  cases valueState with
  | initialMessage => exact .inl rfl
  | computingMessage state => exact .inr ⟨nofun, rfl⟩
  | computingNative state => exact .inr ⟨nofun, rfl⟩
  | evaluationFailed err state => cases unevaluated
  | evaluated => cases unevaluated

namespace RecursiveComputer

variable {Key Reference Queue : Type} [DecidableEq Key]
  {rc rc' : RecursiveComputer Key Reference Queue} {ks other ksBlocker ksCyclic : Key}

/-- The key has been marked as failed. -/
def Failed (rc : RecursiveComputer Key Reference Queue) (ks : Key) : Prop :=
  ∃ err state, (rc.keys ks).valueState = .evaluationFailed err state

/-- The key has been queued with its cache lookup disabled. -/
def Disabled (rc rc' : RecursiveComputer Key Reference Queue) (ks : Key) : Prop :=
  ks ∈ rc'.queuedKeys (rc'.keys ks).evaluationQueue ∧ (rc.keys ks).valueState = .initialMessage ∧
    (rc'.keys ks).valueState = .computingMessage {}

/-! ## Disabling cache lookups -/

section

variable {blockedOn : BlockedOn Key} {remaining : List Key}

/-- The keys that the loop has not passed can still be unblocked forcibly. -/
structure Pending (blockedOn : BlockedOn Key) (remaining : List Key)
    (rc : RecursiveComputer Key Reference Queue) : Prop where
  nodup : remaining.Nodup
  blocked : ∀ ks ∈ remaining, ks ∈ rc.blockedKeys
  contained : ∀ ks ∈ remaining, (rc.keys ks).containingList = some .blockedKeys
  unevaluated : ∀ ks ∈ remaining, (rc.keys ks).valueState.isEvaluated = false
  length : ∀ ks ∈ remaining, (rc.keys ks).blockedCount = (blockedOn ks).length
  enough : ∀ ks ∈ remaining, ∀ ksBlocker,
    (blockedOn ks).count ksBlocker ≤ (rc.keys ksBlocker).blocking.live.count ks

theorem Stalled.pending (stalled : rc.Stalled) : Pending rc.blockedOn rc.blockedKeys rc where
  nodup := stalled.nodup
  blocked := fun _ blocked => blocked
  contained := stalled.contained
  unevaluated := stalled.unevaluated
  length := fun _ blocked => stalled.length_blockedOn blocked
  enough := fun ks _ => count_blockedOn_le stalled.nodup ks

variable (pending : Pending blockedOn (ks :: remaining) rc)

include pending

theorem Pending.tail : Pending blockedOn remaining rc where
  nodup := (nodup_cons.mp pending.nodup).2
  blocked := (forall_mem_cons.mp pending.blocked).2
  contained := (forall_mem_cons.mp pending.contained).2
  unevaluated := (forall_mem_cons.mp pending.unevaluated).2
  length := (forall_mem_cons.mp pending.length).2
  enough := (forall_mem_cons.mp pending.enough).2

theorem Pending.unblocked {blockers : List Key} (unblocked : rc.Unblocked ks blockers rc') :
    Pending blockedOn remaining rc' := by
  have different : ∀ other ∈ remaining, other ≠ ks := by
    rintro other member rfl
    exact (nodup_cons.mp pending.nodup).1 member
  have tail := pending.tail
  exact
    { nodup := tail.nodup
      blocked := by
        intro other member
        rw [unblocked.blockedKeys]
        exact (mem_erase_of_ne (different other member)).mpr (tail.blocked other member)
      contained := by
        intro other member
        rw [unblocked.containingList_of_ne other (different other member)]
        exact tail.contained other member
      unevaluated := by
        intro other member
        rw [unblocked.valueState]
        exact tail.unevaluated other member
      length := by
        intro other member
        rw [unblocked.blockedCount_of_ne other (different other member)]
        exact tail.length other member
      enough := by
        intro other member ksBlocker
        rw [unblocked.count_of_ne ksBlocker other (different other member)]
        exact tail.enough other member ksBlocker }

omit pending

/-- States of keys that only differ in the value state, or the list of a key not pending. -/
theorem Pending.congr (pending : Pending blockedOn remaining rc)
    (blockedKeys : rc'.blockedKeys = rc.blockedKeys)
    (blockedCount : ∀ other, (rc'.keys other).blockedCount = (rc.keys other).blockedCount)
    (blocking : ∀ other, (rc'.keys other).blocking = (rc.keys other).blocking)
    (contained : ∀ other ∈ remaining,
      (rc'.keys other).containingList = (rc.keys other).containingList)
    (unevaluated : ∀ other ∈ remaining, (rc'.keys other).valueState.isEvaluated = false) :
    Pending blockedOn remaining rc' where
  nodup := pending.nodup
  blocked := fun other member => blockedKeys ▸ pending.blocked other member
  contained := fun other member => (contained other member).trans (pending.contained other member)
  unevaluated := unevaluated
  length := fun other member => (blockedCount other).trans (pending.length other member)
  enough := fun other member ksBlocker => blocking ksBlocker ▸ pending.enough other member ksBlocker

variable [DecidableEq Queue]

theorem enqueueForEvaluation_eq (contained : (rc.keys ks).containingList = none) :
    ∃ rc', rc.enqueueForEvaluation ks = .ok rc' ∧ rc'.blockedKeys = rc.blockedKeys ∧
      (∀ rceq other, other ∈ rc.queuedKeys rceq → other ∈ rc'.queuedKeys rceq) ∧
      ks ∈ rc'.queuedKeys (rc.keys ks).evaluationQueue ∧
      rc'.keys = (rc.modify ks ({ · with containingList := some .queuedKeys })).keys := by
  refine ⟨_, if_pos contained, rfl, ?_, ?_, rfl⟩
  · intro rceq other member
    by_cases same : rceq = (rc.keys ks).evaluationQueue
    · subst same
      simp only [update_self]
      exact mem_append_left _ member
    · simp only [update_of_ne same]
      exact member
  · simp only [update_self]
    exact mem_append_right _ mem_cons_self

theorem disable_spec (pending : Pending blockedOn (ks :: remaining) rc) :
    ∃ rc', (do
        let rc ← (rc.modify ks ({ · with valueState := .computingMessage {} })).forceUnblockKeyState
          ks (blockedOn ks)
        rc.enqueueForEvaluation ks) = .ok rc' ∧
      Pending blockedOn remaining rc' ∧
      (∀ other, (rc'.keys other).evaluationQueue = (rc.keys other).evaluationQueue) ∧
      (∀ rceq other, other ∈ rc.queuedKeys rceq → other ∈ rc'.queuedKeys rceq) ∧
      ks ∈ rc'.queuedKeys (rc.keys ks).evaluationQueue ∧
      (rc'.keys ks).valueState = .computingMessage {} ∧
      ∀ other, other ≠ ks → (rc'.keys other).valueState = (rc.keys other).valueState := by
  have pending₁ : Pending blockedOn (ks :: remaining)
      (rc.modify ks ({ · with valueState := .computingMessage {} })) := by
    refine pending.congr rfl (fun other => modify_field _ _ fun _ => rfl)
      (fun other => modify_field _ _ fun _ => rfl) (fun other _ => modify_field _ _ fun _ => rfl) ?_
    intro other member
    by_cases same : other = ks
    · subst same
      rw [modify_self]
      rfl
    · rw [modify_of_ne same]
      exact pending.unevaluated other member
  have first : ks ∈ ks :: remaining := mem_cons_self
  obtain ⟨rc₂, forced, unblocked⟩ := forceUnblockKeyState_spec (pending₁.blocked ks first)
    (pending₁.contained ks first) (pending₁.length ks first) (pending₁.enough ks first)
  obtain ⟨rc₃, enqueued, blockedKeys, queued, own, keys⟩ :=
    enqueueForEvaluation_eq unblocked.containingList
  have queue : ∀ other, (rc₂.keys other).evaluationQueue = (rc.keys other).evaluationQueue :=
    fun other => (unblocked.evaluationQueue other).trans (modify_field _ _ fun _ => rfl)
  have value : ∀ other, (rc₃.keys other).valueState = (rc₂.keys other).valueState := by
    intro other
    rw [keys]
    exact modify_field _ _ fun _ => rfl
  refine ⟨rc₃, ?_, ?_, ?_, ?_, ?_, ?_, ?_⟩
  · rw [forced]
    exact enqueued
  · have pending₂ := pending₁.unblocked unblocked
    refine pending₂.congr blockedKeys ?_ ?_ ?_ ?_
    · intro other
      rw [keys]
      exact modify_field _ _ fun _ => rfl
    · intro other
      rw [keys]
      exact modify_field _ _ fun _ => rfl
    · rintro other member
      have different : other ≠ ks := by
        rintro rfl
        exact (nodup_cons.mp pending.nodup).1 member
      rw [keys, modify_of_ne different]
    · intro other member
      rw [value]
      exact pending₂.unevaluated other member
  · intro other
    rw [← queue, keys]
    exact modify_field _ _ fun _ => rfl
  · intro rceq other member
    apply queued
    rw [unblocked.queuedKeys]
    exact member
  · rwa [queue] at own
  · rw [value, unblocked.valueState, modify_self]
  · intro other different
    rw [value, unblocked.valueState, modify_of_ne different]

/-- What the loop that disables cache lookups does. -/
structure LookupsDisabled (rc : RecursiveComputer Key Reference Queue) (remaining : List Key)
    (rc' : RecursiveComputer Key Reference Queue) : Prop where
  evaluationQueue : ∀ other, (rc'.keys other).evaluationQueue = (rc.keys other).evaluationQueue
  queued : ∀ rceq other, other ∈ rc.queuedKeys rceq → other ∈ rc'.queuedKeys rceq
  disabled : ∀ ks ∈ remaining, (rc.keys ks).valueState = .initialMessage → Disabled rc rc' ks
  kept : ∀ ks, ¬ (ks ∈ remaining ∧ (rc.keys ks).valueState = .initialMessage) →
    (rc'.keys ks).valueState = (rc.keys ks).valueState
  unchanged : (∀ ks ∈ remaining, (rc.keys ks).valueState ≠ .initialMessage) → rc' = rc

theorem disableCacheLookups_spec {keys : List Key} {depth : Nat} {cyclic : Cyclic Key}
    {disabled : Bool} (closed : ∀ ks ∈ keys, ∃ ksBlocker rest,
      blockedOn ks = ksBlocker :: rest ∧ ksBlocker ∈ keys)
    (deep : keys.length < depth) (within : ∀ ks ∈ remaining, ks ∈ keys)
    (noneAcyclic : NoneAcyclic cyclic) (pending : Pending blockedOn remaining rc) :
    ∃ rc' cyclic' disabled', disableCacheLookups blockedOn depth remaining rc cyclic disabled =
        .ok (rc', cyclic', disabled') ∧
      (disabled' = true ↔ disabled = true ∨
        ∃ ks ∈ remaining, (rc.keys ks).valueState = .initialMessage) ∧
      NoneAcyclic cyclic' ∧ rc.LookupsDisabled remaining rc' := by
  induction remaining generalizing rc cyclic disabled with
  | nil =>
    refine ⟨rc, cyclic, disabled, rfl, ?_, noneAcyclic, fun _ => rfl, fun _ _ member => member,
      nofun, fun _ _ => rfl, fun _ => rfl⟩
    exact ⟨.inl, fun either => either.resolve_right nofun⟩
  | cons ks remaining ih =>
    have unvisited := lt_of_le_of_lt (length_filter_le (cyclic · = none) keys) deep
    obtain ⟨cyclic₁, found, noneAcyclic₁⟩ :=
      isBlockedCyclic_eq_true closed unvisited (within ks mem_cons_self) noneAcyclic
    have later : ∀ other ∈ remaining, other ∈ keys := (forall_mem_cons.mp within).2
    have absent := (nodup_cons.mp pending.nodup).1
    rcases ValueState.cases_of_unevaluated (pending.unevaluated ks mem_cons_self) with
      initial | ⟨computing, unaffected⟩
    · obtain ⟨rc₁, finished, pending₁, queue, queued, own, value, others⟩ := disable_spec pending
      obtain ⟨rc', cyclic', disabled', rest, iff, noneAcyclic', spec⟩ :=
        @ih rc₁ cyclic₁ true later noneAcyclic₁ pending₁
      refine ⟨rc', cyclic', disabled', ?_, ?_, noneAcyclic', ?_⟩
      · obtain ⟨rc₂, forced, enqueued⟩ := bind_eq_ok_iff.mp finished
        simp only [disableCacheLookups, found, initial, ValueState.disableCacheLookup, bind,
          Except.bind, forced, enqueued]
        exact rest
      · exact ⟨fun _ => .inr ⟨ks, mem_cons_self, initial⟩, fun _ => iff.mpr (.inl rfl)⟩
      have same : ∀ other ∈ remaining,
          (rc₁.keys other).valueState = (rc.keys other).valueState := by
        intro other member
        apply others
        rintro rfl
        exact absent member
      exact
        { evaluationQueue := fun other => (spec.evaluationQueue other).trans (queue other)
          queued := fun rceq other member => spec.queued rceq other (queued rceq other member)
          disabled := by
            intro other member lookup
            rcases mem_cons.mp member with rfl | member
            · refine ⟨?_, lookup, ?_⟩
              · rw [spec.evaluationQueue, queue]
                exact spec.queued _ _ own
              · rw [spec.kept other fun both => absent both.1, value]
            · obtain ⟨inside, -, after⟩ :=
                spec.disabled other member ((same other member).trans lookup)
              exact ⟨inside, lookup, after⟩
          kept := by
            intro other not
            have different : other ≠ ks := by
              rintro rfl
              exact not ⟨mem_cons_self, initial⟩
            rw [spec.kept other, others other different]
            rintro ⟨member, lookup⟩
            rw [others other different] at lookup
            exact not ⟨mem_cons_of_mem _ member, lookup⟩
          unchanged := fun none => absurd initial (none ks mem_cons_self) }
    · obtain ⟨rc', cyclic', disabled', rest, iff, noneAcyclic', spec⟩ :=
        @ih rc cyclic₁ disabled later noneAcyclic₁ pending.tail
      refine ⟨rc', cyclic', disabled', ?_, ?_, noneAcyclic', ?_⟩
      · simp only [disableCacheLookups, found, bind, Except.bind, if_true, unaffected]
        exact rest
      · rw [iff, exists_mem_cons_iff]
        exact or_congr_right ⟨.inr, fun either => either.resolve_left computing⟩
      exact
        { evaluationQueue := spec.evaluationQueue
          queued := spec.queued
          disabled := by
            intro other member lookup
            rcases mem_cons.mp member with rfl | member
            · exact absurd lookup computing
            · exact spec.disabled other member lookup
          kept := by
            intro other not
            apply spec.kept
            rintro ⟨member, lookup⟩
            exact not ⟨mem_cons_of_mem _ member, lookup⟩
          unchanged := by
            intro none
            exact spec.unchanged (forall_mem_cons.mp none).2 }

end

/-! ## Reporting a cyclic dependency -/

section

variable [DecidableEq Queue]

theorem unblock_spec (positive : 0 < (rc.keys ks).blockedCount) (blocked : ks ∈ rc.blockedKeys)
    (contained : (rc.keys ks).containingList = some .blockedKeys) :
    ∃ rc', rc.unblock ks = .ok rc' ∧ (rc'.keys ks).valueState = (rc.keys ks).valueState ∧
      (∀ other ≠ ks, rc'.keys other = rc.keys other) ∧
      (∀ other ≠ ks, other ∈ rc.blockedKeys → other ∈ rc'.blockedKeys) ∧
      (1 < (rc.keys ks).blockedCount → (rc'.keys ks).blockedCount + 1 = (rc.keys ks).blockedCount ∧
        ks ∈ rc'.blockedKeys ∧ (rc'.keys ks).containingList = some .blockedKeys) := by
  let rc₁ := rc.modify ks fun state => { state with blockedCount := state.blockedCount - 1 }
  have own : rc₁.keys ks = { rc.keys ks with blockedCount := (rc.keys ks).blockedCount - 1 } :=
    modify_self
  have others : ∀ other ≠ ks, rc₁.keys other = rc.keys other := fun other different =>
    modify_of_ne different
  by_cases last : (rc₁.keys ks).blockedCount = 0
  · have removed : rc₁.removeBlocked ks = _ :=
      removeBlocked_eq blocked (by rw [own]; exact contained)
    obtain ⟨rc', enqueued, blockedKeys, -, -, keys⟩ := @enqueueForEvaluation_eq _ _ _ _
      { rc₁.modify ks ({ · with containingList := none }) with
        blockedKeys := rc₁.blockedKeys.erase ks } ks _ (by simp [modify_self])
    refine ⟨rc', ?_, ?_, ?_, ?_, ?_⟩
    · rw [unblock, if_neg (Nat.ne_of_gt positive), if_pos last, removed]
      exact enqueued
    · rw [keys]
      simp [modify_self, own]
    · intro other different
      rw [keys]
      simp [modify_of_ne different, others other different]
    · intro other different member
      rw [blockedKeys]
      exact (mem_erase_of_ne different).mpr member
    · intro more
      rw [own] at last
      exact absurd last (Nat.ne_of_gt (Nat.sub_pos_of_lt more))
  · refine ⟨rc₁, ?_, ?_, others, fun _ _ member => member, ?_⟩
    · rw [unblock, if_neg (Nat.ne_of_gt positive)]
      exact if_neg last
    · rw [own]
    · intro more
      rw [own]
      exact ⟨Nat.sub_add_cancel positive, blocked, contained⟩

/-- Keys blocked on a key that was evaluated are unblocked, affecting counts and lists only. -/
theorem foldlM_unblock {blocking : List Key}
    (enough : ∀ ks ∈ blocking, blocking.count ks ≤ (rc.keys ks).blockedCount)
    (blocked : ∀ ks ∈ blocking, ks ∈ rc.blockedKeys)
    (contained : ∀ ks ∈ blocking, (rc.keys ks).containingList = some .blockedKeys) :
    ∃ rc', blocking.foldlM unblock rc = .ok rc' ∧
      (∀ ks, (rc'.keys ks).valueState = (rc.keys ks).valueState) ∧
      ∀ ks ∉ blocking, (rc'.keys ks).containingList = (rc.keys ks).containingList := by
  induction blocking generalizing rc with
  | nil => exact ⟨rc, rfl, fun _ => rfl, fun _ _ => rfl⟩
  | cons first rest ih =>
    have bound := enough first mem_cons_self
    rw [count_cons_self] at bound
    obtain ⟨rc₁, step, value, others, listed, again⟩ := unblock_spec (Nat.zero_lt_of_lt bound)
      (blocked first mem_cons_self) (contained first mem_cons_self)
    have more : first ∈ rest → 1 < (rc.keys first).blockedCount := fun member =>
      Nat.lt_of_lt_of_le (Nat.succ_lt_succ (count_pos_iff.mpr member)) bound
    have ready : ∀ ks ∈ rest, rest.count ks ≤ (rc₁.keys ks).blockedCount ∧ ks ∈ rc₁.blockedKeys ∧
        (rc₁.keys ks).containingList = some .blockedKeys := by
      intro ks member
      by_cases same : ks = first
      · subst same
        obtain ⟨fewer, still⟩ := again (more member)
        exact ⟨by omega, still⟩
      · have within := mem_cons_of_mem first member
        have bound := enough ks within
        rw [count_cons_of_ne (Ne.symm same)] at bound
        rw [others ks same]
        exact ⟨bound, listed ks same (blocked ks within), contained ks within⟩
    obtain ⟨rc', finished, values, lists⟩ := @ih rc₁ (fun ks member => (ready ks member).1)
      (fun ks member => (ready ks member).2.1) fun ks member => (ready ks member).2.2
    refine ⟨rc', ?_, ?_, ?_⟩
    · rw [foldlM_cons, step]
      exact finished
    · intro ks
      rw [values]
      by_cases same : ks = first
      · subst same
        exact value
      · rw [others ks same]
    · intro ks outside
      obtain ⟨different, outside⟩ := not_or.mp (fun either => outside (mem_cons.mpr either))
      rw [lists ks outside, others ks different]

/-- Evaluating a key releases those that wait for it. -/
theorem evaluatedKeyState_spec (evaluated : (rc.keys ks).valueState.isEvaluated = true)
    (free : (rc.keys ks).containingList = none) (absent : ks ∉ (rc.keys ks).blocking.live)
    (enough : ∀ other ∈ (rc.keys ks).blocking.live,
      (rc.keys ks).blocking.live.count other ≤ (rc.keys other).blockedCount)
    (blocked : ∀ other ∈ (rc.keys ks).blocking.live, other ∈ rc.blockedKeys)
    (contained : ∀ other ∈ (rc.keys ks).blocking.live,
      (rc.keys other).containingList = some .blockedKeys) :
    ∃ rc', rc.evaluatedKeyState ks = .ok rc' ∧
      ∀ other, (rc'.keys other).valueState = (rc.keys other).valueState := by
  obtain ⟨rc₁, finished, values, lists⟩ := foldlM_unblock enough blocked contained
  have free₁ : ((rc₁.modify ks fun state =>
      { state with blocking := state.blocking.reset }).keys ks).containingList = none := by
    rw [modify_self]
    exact (lists ks absent).trans free
  refine ⟨{ (rc₁.modify ks fun state => { state with blocking := state.blocking.reset }).modify ks
    ({ · with containingList := some .evaluatedKeys }) with
      evaluatedKeys := rc₁.evaluatedKeys ++ [ks] }, ?_, ?_⟩
  · rw [evaluatedKeyState, if_pos evaluated, finished]
    exact if_pos free₁
  · intro other
    rw [← values other]
    by_cases same : other = ks
    · subst same
      simp [modify_self]
    · simp [modify_of_ne same]

theorem failBlocked_spec (stalled : rc.Stalled) (blocked : ks ∈ rc.blockedKeys)
    (computing : (rc.keys ks).valueState ≠ .initialMessage)
    (single : (rc.keys ksCyclic).blocking.live = [ks]) :
    ∃ rc', failBlocked rc.blockedOn ksCyclic rc 0 = .ok rc' ∧ rc'.Failed ks ∧
      ∀ other ≠ ks, (rc'.keys other).valueState = (rc.keys other).valueState := by
  have pending := stalled.pending
  obtain ⟨rc₁, forced, unblocked⟩ := forceUnblockKeyState_spec blocked
    (pending.contained ks blocked) (pending.length ks blocked) (pending.enough ks blocked)
  obtain ⟨state, failed⟩ : ∃ state, (rc₁.keys ks).valueState.gotFailedDependency
      ⟨ksCyclic, "cyclic dependency detected"⟩ =
      .ok (.evaluationFailed ⟨ksCyclic, "cyclic dependency detected"⟩ state) := by
    have unevaluated := stalled.unevaluated ks blocked
    rw [unblocked.valueState]
    cases value : (rc.keys ks).valueState with
        rw [value] at unevaluated
    | initialMessage => exact absurd value computing
    | computingMessage state => exact ⟨state, rfl⟩
    | computingNative state => exact ⟨state, rfl⟩
    | evaluationFailed err state =>
      cases unevaluated
    | evaluated =>
      cases unevaluated
  let rc₂ := rc₁.modify ks ({ · with
    valueState := .evaluationFailed ⟨ksCyclic, "cyclic dependency detected"⟩ state })
  have blocking : (rc₂.keys ks).blocking = (rc₁.keys ks).blocking := by
    rw [modify_self]
  -- The key itself is not among those that it blocks any more.
  have absent : ks ∉ (rc₂.keys ks).blocking.live := by
    have count := unblocked.count ks
    rw [count_blockedOn_of_mem stalled.nodup blocked] at count
    rw [blocking, ← count_eq_zero]
    omega
  have different : ∀ other ∈ (rc₂.keys ks).blocking.live, other ≠ ks := by
    rintro other member rfl
    exact absent member
  have count : ∀ other ∈ (rc₂.keys ks).blocking.live, (rc₂.keys ks).blocking.live.count other =
      (rc.keys ks).blocking.live.count other := fun other member => by
    rw [blocking, unblocked.count_of_ne ks other (different other member)]
  have waiting : ∀ other ∈ (rc₂.keys ks).blocking.live, other ∈ rc.blockedKeys := by
    intro other member
    have positive := count_pos_iff.mpr member
    rw [count other member] at positive
    exact stalled.blocking ks blocked other (count_pos_iff.mp positive)
  obtain ⟨rc', finished, values⟩ := @evaluatedKeyState_spec _ _ _ _ rc₂ ks _
    (by
      rw [modify_self]
      rfl)
    (by
      rw [modify_self]
      exact unblocked.containingList)
    absent
    (by
      intro other member
      rw [count other member, modify_of_ne (different other member),
        unblocked.blockedCount_of_ne other (different other member),
        stalled.length_blockedOn (waiting other member),
        ← count_blockedOn_of_mem stalled.nodup blocked]
      exact count_le_length)
    (by
      intro other member
      change other ∈ rc₁.blockedKeys
      rw [unblocked.blockedKeys]
      exact (mem_erase_of_ne (different other member)).mpr (waiting other member))
    (by
      intro other member
      rw [modify_of_ne (different other member),
        unblocked.containingList_of_ne other (different other member)]
      exact stalled.contained other (waiting other member))
  refine ⟨rc', ?_, ⟨⟨ksCyclic, "cyclic dependency detected"⟩, state, ?_⟩, ?_⟩
  · simp only [failBlocked, array, single, map_cons, cons_append,
      getElem?_cons_zero, bind, Except.bind, forced, failed]
    exact finished
  · rw [values, modify_self]
  · intro other different
    rw [values, modify_of_ne different, unblocked.valueState]

end

/-! ## Keys that block more than one other key -/

section

variable {index : Nat}

theorem removeBlocking_blocking (removed : removeBlocking ks rc ksBlocker = .ok rc') :
    (∃ blocking, (rc.keys ksBlocker).blocking.remove ks = some blocking ∧
      (rc'.keys ksBlocker).blocking = blocking) ∧
      ∀ other ≠ ksBlocker, (rc'.keys other).blocking = (rc.keys other).blocking := by
  rw [removeBlocking] at removed
  cases result : (rc.keys ksBlocker).blocking.remove ks with
      rw [result] at removed
  | none =>
    cases removed
  | some blocking =>
    cases removed
    refine ⟨⟨blocking, rfl, ?_⟩, fun other different => ?_⟩
    · rw [modify_self]
    · rw [modify_of_ne different]

theorem removeBlocked_blocking (removed : rc.removeBlocked ks = .ok rc') :
    (rc'.keys other).blocking = (rc.keys other).blocking := by
  rw [removeBlocked] at removed
  split_ifs at removed
  cases removed
  dsimp only
  exact rc.modify_field _ fun _ => rfl

theorem enqueueForEvaluation_blocking [DecidableEq Queue]
    (enqueued : rc.enqueueForEvaluation ks = .ok rc') :
    (rc'.keys other).blocking = (rc.keys other).blocking := by
  rw [enqueueForEvaluation] at enqueued
  split_ifs at enqueued
  cases enqueued
  dsimp only
  exact rc.modify_field _ fun _ => rfl

theorem unblock_blocking [DecidableEq Queue] (unblocked : rc.unblock ks = .ok rc') :
    (rc'.keys other).blocking = (rc.keys other).blocking := by
  have kept : ((rc.modify ks fun state =>
      { state with blockedCount := state.blockedCount - 1 }).keys other).blocking =
      (rc.keys other).blocking := modify_field _ _ fun _ => rfl
  simp only [unblock] at unblocked
  split_ifs at unblocked
  · obtain ⟨rc₁, removed, enqueued⟩ := bind_eq_ok_iff.mp unblocked
    rw [enqueueForEvaluation_blocking enqueued, removeBlocked_blocking removed, kept]
  · cases unblocked
    exact kept

theorem foldlM_removeBlocking_cleared {blockers : List Key}
    (removed : blockers.foldlM (removeBlocking ks) rc = .ok rc')
    (cleared : (rc.keys ksCyclic).blocking.Cleared index ∨
      (rc.keys ksCyclic).blocking.live.length = index + 1 ∧ ksCyclic ∈ blockers) :
    (rc'.keys ksCyclic).blocking.Cleared index := by
  induction blockers generalizing rc with
  | nil =>
    cases removed
    exact cleared.resolve_right fun both => nomatch both.2
  | cons first blockers ih =>
    obtain ⟨rc₁, step, rest⟩ := bind_eq_ok_iff.mp removed
    obtain ⟨⟨blocking, shorter, assigned⟩, others⟩ := removeBlocking_blocking step
    apply ih rest
    by_cases same : ksCyclic = first
    · subst same
      rw [assigned]
      rcases cleared with cleared | ⟨last, -⟩
      · exact .inl (cleared.remove shorter)
      · exact .inl (cleared_of_remove last shorter)
    · rw [others ksCyclic same]
      exact cleared.imp_right fun both =>
        ⟨both.1, (mem_cons.mp both.2).resolve_left same⟩

theorem forceUnblockKeyState_cleared {blockers : List Key}
    (forced : rc.forceUnblockKeyState ks blockers = .ok rc')
    (cleared : (rc.keys ksCyclic).blocking.Cleared index ∨
      (rc.keys ksCyclic).blocking.live.length = index + 1 ∧ ksCyclic ∈ blockers) :
    (rc'.keys ksCyclic).blocking.Cleared index := by
  rw [forceUnblockKeyState] at forced
  split_ifs at forced
  obtain ⟨rc₁, removed, finished⟩ := bind_eq_ok_iff.mp forced
  have kept : ((rc₁.modify ks ({ · with blockedCount := 0 })).keys ksCyclic).blocking =
      (rc₁.keys ksCyclic).blocking := modify_field _ _ fun _ => rfl
  rw [removeBlocked_blocking finished, kept]
  exact foldlM_removeBlocking_cleared removed cleared

variable [DecidableEq Queue] {blockedOn : BlockedOn Key}

theorem evaluatedKeyState_cleared (evaluated : rc.evaluatedKeyState ks = .ok rc')
    (cleared : (rc.keys ksCyclic).blocking.Cleared index) :
    (rc'.keys ksCyclic).blocking.Cleared index := by
  rw [evaluatedKeyState] at evaluated
  split_ifs at evaluated
  obtain ⟨rc₁, unblocked, pushed⟩ := bind_eq_ok_iff.mp evaluated
  have kept : (rc₁.keys ksCyclic).blocking = (rc.keys ksCyclic).blocking :=
    invariant_of_foldlM
      (fun _ rc₁ => (rc₁.keys ksCyclic).blocking = (rc.keys ksCyclic).blocking)
      (fun same step => (unblock_blocking step).trans same) rfl unblocked
  rw [← kept] at cleared
  rw [pushEvaluated] at pushed
  split_ifs at pushed
  cases pushed
  by_cases same : ksCyclic = ks
  · subst same
    simp only [modify_self]
    exact cleared.reset
  · simp only [modify_of_ne same]
    exact cleared

theorem failBlocked_cleared {entry : Nat}
    (failed : failBlocked blockedOn ksCyclic rc entry = .ok rc')
    (cleared : (rc.keys ksCyclic).blocking.Cleared index ∨
      (rc.keys ksCyclic).blocking.live.length = index + 1 ∧ entry ≤ index ∧
        ∀ ks ∈ (rc.keys ksCyclic).blocking.live, ksCyclic ∈ blockedOn ks) :
    (rc'.keys ksCyclic).blocking.Cleared index := by
  rw [failBlocked] at failed
  cases found : (rc.keys ksCyclic).blocking.array[entry]? with
      rw [found] at failed
  | none =>
    cases failed
  | some content =>
    cases content with
    | none => cases failed
    | some ksBlocked =>
      obtain ⟨rc₁, forced, failed⟩ := bind_eq_ok_iff.mp failed
      obtain ⟨valueState, -, evaluated⟩ := bind_eq_ok_iff.mp failed
      have kept : ((rc₁.modify ksBlocked ({ · with valueState })).keys ksCyclic).blocking =
          (rc₁.keys ksCyclic).blocking := modify_field _ _ fun _ => rfl
      apply evaluatedKeyState_cleared evaluated
      rw [kept]
      refine forceUnblockKeyState_cleared forced (cleared.imp_right fun all => ⟨all.1, ?_⟩)
      obtain ⟨length, within, blockers⟩ := all
      apply blockers
      rw [array, getElem?_append_left (by rw [length_map]; omega), getElem?_map] at found
      obtain ⟨_, found, ⟨⟩⟩ := map_eq_some_iff.mp found
      exact mem_of_getElem? found

theorem foldlM_failBlocked_ne_ok (several : (rc.keys ksCyclic).blocking.live.length = index + 2)
    (blockers : ∀ ks ∈ (rc.keys ksCyclic).blocking.live, ksCyclic ∈ blockedOn ks) :
    (List.range (index + 2)).foldlM (failBlocked blockedOn ksCyclic) rc ≠ .ok rc' := by
  intro finished
  rw [range_succ, foldlM_append] at finished
  obtain ⟨rc₂, earlier, last⟩ := bind_eq_ok_iff.mp finished
  rw [range_succ_eq_map] at earlier
  obtain ⟨rc₁, first, middle⟩ := bind_eq_ok_iff.mp earlier
  have cleared : (rc₁.keys ksCyclic).blocking.Cleared (index + 1) :=
    failBlocked_cleared first (.inr ⟨several, Nat.zero_le _, blockers⟩)
  have kept : (rc₂.keys ksCyclic).blocking.Cleared (index + 1) :=
    invariant_of_foldlM
      (fun _ (rc : RecursiveComputer Key Reference Queue) =>
        (rc.keys ksCyclic).blocking.Cleared (index + 1))
      (fun cleared step => failBlocked_cleared step (.inl cleared)) cleared middle
  rw [foldlM_cons, failBlocked, kept.2] at last
  cases last

end

/-- What handling cycles is to achieve: it does not panic, some key makes progress, and only keys
directly blocked on one on a cycle are marked as failed. -/
def HandlesCycles [DecidableEq Queue] (rc : RecursiveComputer Key Reference Queue) : Prop :=
  ∃ rc', rc.handleCycles = .ok rc' ∧
    (∃ ks, Disabled rc rc' ks ∨ (¬ rc.Failed ks ∧ rc'.Failed ks)) ∧
    ∀ ks, ¬ rc.Failed ks → rc'.Failed ks → ∃ ksBlocker, rc.IsBlockedOn ks ksBlocker ∧
      rc.OnCycle ksBlocker

/-! ## What the handling of cycles achieves -/

variable [DecidableEq Queue]

/-- Some key is performing a cache lookup, or the first blocked key blocks a single other one, which
is directly blocked on a key on a cycle. -/
def Resolvable (rc : RecursiveComputer Key Reference Queue) : Prop :=
  (∃ ks ∈ rc.blockedKeys, (rc.keys ks).valueState = .initialMessage) ∨
    ∃ ksCyclic ks, rc.blockedKeys.head? = some ksCyclic ∧
      (rc.keys ksCyclic).blocking.live = [ks] ∧
      ∃ ksBlocker, rc.IsBlockedOn ks ksBlocker ∧ rc.OnCycle ksBlocker

theorem Stalled.disableCacheLookups (stalled : rc.Stalled) :
    ∃ rc' cyclic disabled, disableCacheLookups rc.blockedOn (rc.blockedKeys.length + 1)
        rc.blockedKeys rc (fun _ => none) false = .ok (rc', cyclic, disabled) ∧
      (disabled = true ↔ false = true ∨
        ∃ ks ∈ rc.blockedKeys, (rc.keys ks).valueState = .initialMessage) ∧
      NoneAcyclic cyclic ∧ rc.LookupsDisabled rc.blockedKeys rc' :=
  disableCacheLookups_spec (fun _ => stalled.exists_blocker) (Nat.lt_succ_self _)
    (fun _ member => member) nofun stalled.pending

/-- Handling a cycle fails the keys that wait for one of its members. -/
theorem Stalled.handleCycles_eq (stalled : rc.Stalled)
    (first : rc.blockedKeys.head? = some ksCyclic)
    (computing : ∀ ks ∈ rc.blockedKeys, (rc.keys ks).valueState ≠ .initialMessage) :
    rc.handleCycles = (List.range (rc.keys ksCyclic).blocking.live.length).foldlM
      (failBlocked rc.blockedOn ksCyclic) rc := by
  obtain ⟨rc', cyclic, disabled, finished, iff, noneAcyclic, spec⟩ := stalled.disableCacheLookups
  have none : disabled = false := by
    rw [Bool.eq_false_iff, ne_eq, iff]
    rintro (already | ⟨ks, member, initial⟩)
    · cases already
    · exact computing ks member initial
  rw [spec.unchanged computing, none] at finished
  obtain ⟨rest, split⟩ := head?_eq_some_iff.mp first
  have blocked : ksCyclic ∈ rc.blockedKeys := split ▸ mem_cons_self
  obtain ⟨cyclic', found, -⟩ := isBlockedCyclic_eq_true
    (fun _ => stalled.exists_blocker)
    (Nat.lt_succ_of_le (length_filter_le (cyclic · = Option.none) rc.blockedKeys)) blocked
    noneAcyclic
  have search : findCyclic rc.blockedOn (rc.blockedKeys.length + 1) rc.blockedKeys cyclic =
      .ok ksCyclic := by
    nth_rewrite 2 [split]
    simp only [findCyclic, found, bind, Except.bind]
    rfl
  simp [handleCycles, finished, bind, Except.bind, search]

/-- Cycles are handled if, and only if, the configuration is resolvable. -/
theorem handlesCycles_iff (stalled : rc.Stalled) : rc.HandlesCycles ↔ rc.Resolvable := by
  by_cases lookup : ∃ ks ∈ rc.blockedKeys, (rc.keys ks).valueState = .initialMessage
  · refine ⟨fun _ => .inl lookup, fun _ => ?_⟩
    obtain ⟨rc', cyclic, disabled, finished, iff, -, spec⟩ := stalled.disableCacheLookups
    refine ⟨rc', ?_, ?_, ?_⟩
    · simp only [handleCycles, finished, bind, Except.bind, iff.mpr (.inr lookup), if_true]
      rfl
    · obtain ⟨ks, blocked, initial⟩ := lookup
      exact ⟨ks, .inl (spec.disabled ks blocked initial)⟩
    · rintro ks before ⟨err, state, after⟩
      exfalso
      by_cases initial : ks ∈ rc.blockedKeys ∧ (rc.keys ks).valueState = .initialMessage
      · obtain ⟨-, -, computing⟩ := spec.disabled ks initial.1 initial.2
        rw [computing] at after
        cases after
      · rw [spec.kept ks initial] at after
        exact before ⟨err, state, after⟩
  have computing : ∀ ks ∈ rc.blockedKeys, (rc.keys ks).valueState ≠ .initialMessage :=
    fun ks blocked initial => lookup ⟨ks, blocked, initial⟩
  obtain ⟨ksCyclic, rest, split⟩ := exists_cons_of_ne_nil stalled.nonempty
  have first : rc.blockedKeys.head? = some ksCyclic := by rw [split, head?_cons]
  have blocked : ksCyclic ∈ rc.blockedKeys := split ▸ mem_cons_self
  have result := stalled.handleCycles_eq first computing
  have resolvable : rc.Resolvable ↔ ∃ ks, (rc.keys ksCyclic).blocking.live = [ks] ∧
      ∃ ksBlocker, rc.IsBlockedOn ks ksBlocker ∧ rc.OnCycle ksBlocker := by
    simp [Resolvable, lookup, first]
  rw [resolvable]
  -- The cases are those of the number of keys that the first one blocks.
  match blocking : (rc.keys ksCyclic).blocking.live with
  | [] =>
    rw [blocking] at result
    constructor
    · rintro ⟨rc', finished, ⟨ks, ⟨queued, -⟩ | ⟨before, after⟩⟩, -⟩
      all_goals
        rw [result] at finished
        cases finished
      · rw [stalled.no_queued] at queued
        cases queued
      · exact absurd after before
    · rintro ⟨_, ⟨⟩, -⟩
  | [ks] =>
    have member : ks ∈ (rc.keys ksCyclic).blocking.live := blocking ▸ mem_cons_self
    have waiting := stalled.blocking ksCyclic blocked ks member
    obtain ⟨rc', failed, marked, others⟩ :=
      failBlocked_spec stalled waiting (computing ks waiting) blocking
    have unmarked : ¬ rc.Failed ks := by
      rintro ⟨err, state, value⟩
      have unevaluated := stalled.unevaluated ks waiting
      rw [value] at unevaluated
      cases unevaluated
    have finished : rc.handleCycles = .ok rc' := by
      rw [result, blocking]
      simp only [length_singleton, range_one, foldlM_cons, foldlM_nil, failed]
      rfl
    constructor
    · rintro ⟨rc₁, finished₁, -, cyclic⟩
      obtain rfl := Except.ok.inj (finished.symm.trans finished₁)
      exact ⟨ks, rfl, cyclic ks unmarked marked⟩
    · rintro ⟨_, ⟨⟩, cyclic⟩
      refine ⟨rc', finished, ⟨ks, .inr ⟨unmarked, marked⟩⟩, ?_⟩
      intro other before after
      by_cases same : other = ks
      · rwa [same]
      · obtain ⟨err, state, value⟩ := after
        rw [others other same] at value
        exact absurd ⟨err, state, value⟩ before
  | ks :: other :: more =>
    have several : (rc.keys ksCyclic).blocking.live.length = more.length + 2 := by
      rw [blocking]
      rfl
    have blockers : ∀ ks ∈ (rc.keys ksCyclic).blocking.live, ksCyclic ∈ rc.blockedOn ks :=
      fun ks member => mem_blockedOn_iff.mpr ⟨blocked, member⟩
    constructor
    · rintro ⟨rc', finished, -⟩
      rw [result, several] at finished
      exact absurd finished (foldlM_failBlocked_ne_ok several blockers)
    · rintro ⟨_, ⟨⟩, -⟩

/-- Keys whose values are being computed, and that are blocked on each other. -/
def ofBlocking (blockedKeys : List Bool) (blocking : Bool → List Bool) :
    RecursiveComputer Bool Unit Unit where
  keys := fun ks =>
    { evaluationQueue := ()
      containingList := some .blockedKeys
      blockedCount := (blockedKeys.map fun ksBlocker => (blocking ksBlocker).count ks).sum
      blocking := .ofList (blocking ks)
      valueState := .computingMessage {} }
  blockedKeys := blockedKeys
  evaluatingKeys := []
  evaluatableKeysCount := 0
  queuedKeys := fun _ => []
  evaluatedKeys := []

theorem stalled_ofBlocking {blockedKeys : List Bool} {blocking : Bool → List Bool}
    (nonempty : blockedKeys ≠ []) (nodup : blockedKeys.Nodup)
    (closed : ∀ ksBlocker ∈ blockedKeys, ∀ ks ∈ blocking ksBlocker, ks ∈ blockedKeys)
    (positive : ∀ ks ∈ blockedKeys, 0 < ((ofBlocking blockedKeys blocking).keys ks).blockedCount) :
    (ofBlocking blockedKeys blocking).Stalled :=
  ⟨fun _ => rfl, rfl, rfl, nonempty, nodup, fun _ _ => rfl, fun _ _ => rfl, closed, positive,
    fun _ _ => rfl⟩

/-- Two keys that are blocked on each other. -/
theorem handlesCycles_of_pair :
    (ofBlocking [false, true] fun ks => [!ks]).Stalled ∧
      (ofBlocking [false, true] fun ks => [!ks]).HandlesCycles := by
  have stalled : (ofBlocking [false, true] fun ks => [!ks]).Stalled :=
    stalled_ofBlocking (by decide) (by decide) (by decide) (by decide)
  have edge : ∀ ks, (ofBlocking [false, true] fun ks => [!ks]).IsBlockedOn ks (!ks) := by
    intro ks
    cases ks with
    | false => exact ⟨by decide, by decide⟩
    | true => exact ⟨by decide, by decide⟩
  refine ⟨stalled, (handlesCycles_iff stalled).mpr (.inr ⟨false, true, rfl, rfl, false, ?_, ?_⟩)⟩
  · exact edge true
  · exact .tail (.single (edge false)) (edge true)

/-- A key that is blocked on itself, while another key is blocked on it as well, causes a panic. If
it is the other key that comes first, nothing happens at all. -/
theorem handleCycles_panics :
    (ofBlocking [true, false] fun ks => if ks then [true, false] else []).Stalled ∧
      (ofBlocking [true, false] fun ks => if ks then [true, false] else []).handleCycles =
        .error .nilDereference ∧
      (ofBlocking [false, true] fun ks => if ks then [true, false] else []).Stalled ∧
      (ofBlocking [false, true] fun ks => if ks then [true, false] else []).handleCycles =
        .ok (ofBlocking [false, true] fun ks => if ks then [true, false] else []) :=
  ⟨stalled_ofBlocking (by decide) (by decide) (by decide) (by decide), rfl,
    stalled_ofBlocking (by decide) (by decide) (by decide) (by decide), rfl⟩

end RecursiveComputer

end Bonanza.Evaluation
