import Bonanza.Evaluation.RecursiveComputer
import Bonanza.Lib.Fallible

/-! # Keys unblocked forcibly

Configurations in which no key is queued or being evaluated. In these, `isBlockedCyclic` holds for
every key that is blocked, as every key leads to a cycle (`isBlockedCyclic_eq_true`). The lists of
keys that are blocked agree with the counts of the keys on which they are blocked, so that
`forceUnblockKeyState` does not panic (`forceUnblockKeyState_spec`).
-/

namespace Bonanza.Evaluation

open List Function

namespace RecursiveComputer

variable {Key Reference Queue : Type} [DecidableEq Key]
  {rc rc' : RecursiveComputer Key Reference Queue} {ks other ksBlocker : Key}

/-- A key is blocked on another one. -/
def IsBlockedOn (rc : RecursiveComputer Key Reference Queue) (ks ksBlocker : Key) : Prop :=
  ksBlocker ∈ rc.blockedKeys ∧ ks ∈ (rc.keys ksBlocker).blocking.live

/-- A key lies on a cycle of blocked keys. -/
def OnCycle (rc : RecursiveComputer Key Reference Queue) (ks : Key) : Prop :=
  Relation.TransGen rc.IsBlockedOn ks ks

/-- Keys are blocked, and none is queued or being evaluated. Keys that block others are blocked. -/
structure Stalled (rc : RecursiveComputer Key Reference Queue) : Prop where
  no_queued : ∀ rceq, rc.queuedKeys rceq = []
  no_evaluatable : rc.evaluatableKeysCount = 0
  no_evaluating : rc.evaluatingKeys = []
  nonempty : rc.blockedKeys ≠ []
  nodup : rc.blockedKeys.Nodup
  contained : ∀ ks ∈ rc.blockedKeys, (rc.keys ks).containingList = some .blockedKeys
  unevaluated : ∀ ks ∈ rc.blockedKeys, (rc.keys ks).valueState.isEvaluated = false
  blocking : ∀ ksBlocker ∈ rc.blockedKeys, ∀ ks ∈ (rc.keys ksBlocker).blocking.live,
    ks ∈ rc.blockedKeys
  positive : ∀ ks ∈ rc.blockedKeys, 0 < (rc.keys ks).blockedCount
  counted : ∀ ks ∈ rc.blockedKeys, (rc.keys ks).blockedCount =
    (rc.blockedKeys.map fun ksBlocker => (rc.keys ksBlocker).blocking.live.count ks).sum

/-! ## The keys on which a key is blocked -/

theorem foldl_append_apply (blockedOn : BlockedOn Key) (blocking : List Key) (ks ksBlocker : Key) :
    blocking.foldl (fun blockedOn ksBlocked =>
      update blockedOn ksBlocked (blockedOn ksBlocked ++ [ksBlocker])) blockedOn ks =
      blockedOn ks ++ replicate (blocking.count ks) ksBlocker := by
  induction blocking generalizing blockedOn with
  | nil => rw [count_nil, replicate_zero, append_nil, foldl_nil]
  | cons ksBlocked blocking ih =>
    rw [foldl_cons, ih]
    by_cases same : ks = ksBlocked
    · subst same
      rw [update_self, count_cons_self, append_assoc, singleton_append, replicate_succ]
    · rw [update_of_ne same, count_cons_of_ne (Ne.symm same)]

theorem blockedOn_eq : rc.blockedOn ks = rc.blockedKeys.flatMap fun ksBlocker =>
    replicate ((rc.keys ksBlocker).blocking.live.count ks) ksBlocker := by
  have general : ∀ (keys : List Key) (blockedOn : BlockedOn Key), keys.foldl
      (fun blockedOn ks => (rc.keys ks).blocking.live.foldl (fun blockedOn ksBlocked =>
        update blockedOn ksBlocked (blockedOn ksBlocked ++ [ks])) blockedOn)
      blockedOn ks = blockedOn ks ++ keys.flatMap fun ksBlocker =>
        replicate ((rc.keys ksBlocker).blocking.live.count ks) ksBlocker := by
    intro keys
    induction keys with
    | nil => exact fun blockedOn => (append_nil _).symm
    | cons ksBlocker keys ih =>
      intro blockedOn
      rw [foldl_cons, ih, foldl_append_apply, append_assoc, flatMap_cons]
  exact (general _ _).trans (nil_append _)

theorem mem_blockedOn_iff : ksBlocker ∈ rc.blockedOn ks ↔ rc.IsBlockedOn ks ksBlocker := by
  rw [blockedOn_eq, mem_flatMap]
  constructor
  · rintro ⟨blocker, blocked, member⟩
    obtain ⟨positive, rfl⟩ := mem_replicate.mp member
    exact ⟨blocked, count_pos_iff.mp (pos_of_ne_zero positive)⟩
  · rintro ⟨blocked, member⟩
    refine ⟨ksBlocker, blocked, mem_replicate.mpr ⟨?_, rfl⟩⟩
    exact ne_of_gt (count_pos_iff.mpr member)

theorem count_blockedOn_of_mem (nodup : rc.blockedKeys.Nodup) (blocked : ksBlocker ∈ rc.blockedKeys)
    (ks : Key) :
    (rc.blockedOn ks).count ksBlocker = (rc.keys ksBlocker).blocking.live.count ks := by
  obtain ⟨before, after, split⟩ := append_of_mem blocked
  rw [split] at nodup
  have unique := nodup_middle.mp nodup
  obtain ⟨absent, -⟩ := nodup_cons.mp unique
  have none : ∀ keys : List Key, ksBlocker ∉ keys → (keys.flatMap fun blocker =>
      replicate ((rc.keys blocker).blocking.live.count ks) blocker).count ksBlocker = 0 := by
    intro keys outside
    rw [count_eq_zero, mem_flatMap]
    rintro ⟨blocker, member, equal⟩
    exact outside ((mem_replicate.mp equal).2 ▸ member)
  rw [blockedOn_eq, split, flatMap_append, flatMap_cons, count_append,
    count_append, none before fun member => absent (mem_append_left _ member),
    none after fun member => absent (mem_append_right _ member), count_replicate_self]
  omega

theorem count_blockedOn_le (nodup : rc.blockedKeys.Nodup) (ks ksBlocker : Key) :
    (rc.blockedOn ks).count ksBlocker ≤ (rc.keys ksBlocker).blocking.live.count ks := by
  by_cases blocked : ksBlocker ∈ rc.blockedKeys
  · exact Nat.le_of_eq (count_blockedOn_of_mem nodup blocked ks)
  · have absent : ksBlocker ∉ rc.blockedOn ks := fun member =>
      blocked (mem_blockedOn_iff.mp member).1
    rw [count_eq_zero.mpr absent]
    exact Nat.zero_le _

namespace Stalled

variable (stalled : rc.Stalled)

include stalled

theorem length_blockedOn (blocked : ks ∈ rc.blockedKeys) :
    (rc.keys ks).blockedCount = (rc.blockedOn ks).length := by
  rw [stalled.counted ks blocked, blockedOn_eq]
  simp

theorem exists_blocker (blocked : ks ∈ rc.blockedKeys) :
    ∃ ksBlocker rest, rc.blockedOn ks = ksBlocker :: rest ∧ ksBlocker ∈ rc.blockedKeys := by
  have positive := stalled.positive ks blocked
  rw [stalled.length_blockedOn blocked] at positive
  obtain ⟨ksBlocker, rest, split⟩ := exists_cons_of_length_pos positive
  have member : ksBlocker ∈ rc.blockedOn ks := split ▸ mem_cons_self
  exact ⟨ksBlocker, rest, split, (mem_blockedOn_iff.mp member).1⟩

end Stalled

/-! ## Every blocked key is cyclic -/

/-- No key has been found to be acyclic. -/
def NoneAcyclic (cyclic : Cyclic Key) : Prop := ∀ ks v, cyclic ks = some v → v = true

theorem isBlockedCyclic_eq_true {blockedOn : BlockedOn Key} {keys : List Key}
    (closed : ∀ ks ∈ keys, ∃ ksBlocker rest, blockedOn ks = ksBlocker :: rest ∧ ksBlocker ∈ keys)
    {depth : Nat} {cyclic : Cyclic Key} (unvisited : (keys.filter (cyclic · = none)).length < depth)
    (member : ks ∈ keys) (noneAcyclic : NoneAcyclic cyclic) :
    ∃ cyclic', isBlockedCyclic blockedOn depth ks cyclic = .ok (true, cyclic') ∧
      NoneAcyclic cyclic' := by
  induction depth generalizing ks cyclic with
  | zero => exact absurd unvisited (Nat.not_lt_zero _)
  | succ depth ih =>
    cases visited : cyclic ks with
    | some v =>
      refine ⟨cyclic, ?_, noneAcyclic⟩
      rw [noneAcyclic ks v visited] at visited
      simp [isBlockedCyclic, visited]
    | none =>
      obtain ⟨ksBlocker, rest, split, blocker⟩ := closed ks member
      have noneAcyclic' : NoneAcyclic (update cyclic ks (some true)) := by
        intro other v found
        by_cases same : other = ks
        · rw [same, update_self] at found
          exact (Option.some.inj found).symm
        · rw [update_of_ne same] at found
          exact noneAcyclic other v found
      -- The key is now visited, so that fewer unvisited ones remain.
      have fewer : (keys.filter (update cyclic ks (some true) · = none)).length <
          depth := by
        have within : keys.filter (update cyclic ks (some true) · = none) =
            (keys.filter (cyclic · = none)).filter (update cyclic ks (some true) · = none) := by
          rw [filter_filter]
          refine filter_congr fun other _ => ?_
          by_cases same : other = ks
          · simp [same]
          · simp [same]
        rw [within]
        refine Nat.lt_of_lt_of_le (length_filter_lt_length_iff_exists.mpr ⟨ks, ?_, ?_⟩)
          (Nat.le_of_lt_succ unvisited)
        · exact mem_filter.mpr ⟨member, decide_eq_true visited⟩
        · simp
      obtain ⟨cyclic', found, kept⟩ := ih fewer blocker noneAcyclic'
      refine ⟨cyclic', ?_, kept⟩
      simp only [isBlockedCyclic, visited, split, anyBlockedCyclic, found, bind, Except.bind]
      rfl

/-! ## Removing keys from the lists of those that block them -/

variable {alter : KeyState Key Reference Queue → KeyState Key Reference Queue} {blockers : List Key}

theorem modify_self : (rc.modify ks alter).keys ks = alter (rc.keys ks) := update_self ..

theorem modify_of_ne (different : other ≠ ks) : (rc.modify ks alter).keys other = rc.keys other :=
  update_of_ne different ..

theorem modify_field (rc : RecursiveComputer Key Reference Queue) {β : Type*}
    (field : KeyState Key Reference Queue → β) (kept : ∀ state, field (alter state) = field state) :
    field ((rc.modify ks alter).keys other) = field (rc.keys other) := by
  by_cases same : other = ks
  · subst same
    rw [modify_self, kept]
  · rw [modify_of_ne same]

theorem removeBlocked_eq (blocked : ks ∈ rc.blockedKeys)
    (contained : (rc.keys ks).containingList = some .blockedKeys) :
    rc.removeBlocked ks = .ok { rc.modify ks ({ · with containingList := none }) with
      blockedKeys := rc.blockedKeys.erase ks } := by
  rw [removeBlocked, if_pos contained, if_neg (ne_nil_of_mem blocked)]

/-- The computer after other lists of blocked keys have been assigned. -/
def withBlocking (rc : RecursiveComputer Key Reference Queue) (blocking : Key → SharedSlice Key) :
    RecursiveComputer Key Reference Queue :=
  { rc with keys := fun ks => { rc.keys ks with blocking := blocking ks } }

theorem modify_blocking (blocking : SharedSlice Key) :
    rc.modify ks ({ · with blocking }) =
      rc.withBlocking (update (fun ks => (rc.keys ks).blocking) ks blocking) := by
  simp only [modify, withBlocking, mk.injEq, and_true]
  funext other
  by_cases same : other = ks
  · subst same
    simp
  · simp [update_of_ne same]

theorem foldlM_removeBlocking
    (enough : ∀ ksBlocker, blockers.count ksBlocker ≤ (rc.keys ksBlocker).blocking.live.count ks) :
    ∃ blocking, blockers.foldlM (removeBlocking ks) rc = .ok (rc.withBlocking blocking) ∧
      ∀ ksBlocker, (blocking ksBlocker).live.count ks + blockers.count ksBlocker =
          (rc.keys ksBlocker).blocking.live.count ks ∧
        ∀ other, other ≠ ks → (blocking ksBlocker).live.count other =
          (rc.keys ksBlocker).blocking.live.count other := by
  induction blockers generalizing rc with
  | nil => exact ⟨fun ks => (rc.keys ks).blocking, rfl, fun ksBlocker => ⟨rfl, fun _ _ => rfl⟩⟩
  | cons first blockers ih =>
    have positive : 0 < (rc.keys first).blocking.live.count ks := by
      have bound := enough first
      rw [count_cons_self] at bound
      omega
    obtain ⟨live, removed, perm⟩ := SharedSlice.remove_of_mem (count_pos_iff.mp positive)
    have step : removeBlocking ks rc first = .ok (rc.modify first
        ({ · with blocking := ⟨live, none :: (rc.keys first).blocking.behind⟩ })) := by
      simp [removeBlocking, removed]
    have fewer : live.count ks + 1 = (rc.keys first).blocking.live.count ks := by
      rw [perm.count_eq, count_erase_self]
      omega
    obtain ⟨blocking, finished, counts⟩ := @ih (rc.modify first
      ({ · with blocking := ⟨live, none :: (rc.keys first).blocking.behind⟩ })) (by
        intro ksBlocker
        have bound := enough ksBlocker
        by_cases same : ksBlocker = first
        · subst same
          rw [count_cons_self] at bound
          simp only [modify_self]
          omega
        · rw [modify_of_ne same]
          rwa [count_cons_of_ne (Ne.symm same)] at bound)
    refine ⟨blocking, ?_, ?_⟩
    · rw [foldlM_cons, step]
      refine finished.trans (congrArg _ ?_)
      rw [modify_blocking]
      rfl
    · intro ksBlocker
      obtain ⟨own, others⟩ := counts ksBlocker
      by_cases same : ksBlocker = first
      · subst same
        rw [modify_self] at own others
        refine ⟨?_, fun other different => ?_⟩
        · rw [count_cons_self]
          simp only at own
          omega
        · rw [others other different]
          exact (perm.count_eq other).trans (count_erase_of_ne different)
      · rw [modify_of_ne same] at own others
        exact ⟨by rwa [count_cons_of_ne (Ne.symm same)], others⟩

/-- What `forceUnblockKeyState` does. -/
structure Unblocked (rc : RecursiveComputer Key Reference Queue) (ks : Key) (blockers : List Key)
    (rc' : RecursiveComputer Key Reference Queue) : Prop where
  blockedKeys : rc'.blockedKeys = rc.blockedKeys.erase ks
  queuedKeys : rc'.queuedKeys = rc.queuedKeys
  valueState : ∀ other, (rc'.keys other).valueState = (rc.keys other).valueState
  evaluationQueue : ∀ other, (rc'.keys other).evaluationQueue = (rc.keys other).evaluationQueue
  containingList : (rc'.keys ks).containingList = none
  containingList_of_ne : ∀ other, other ≠ ks →
    (rc'.keys other).containingList = (rc.keys other).containingList
  blockedCount_of_ne : ∀ other, other ≠ ks →
    (rc'.keys other).blockedCount = (rc.keys other).blockedCount
  count : ∀ ksBlocker, (rc'.keys ksBlocker).blocking.live.count ks + blockers.count ksBlocker =
    (rc.keys ksBlocker).blocking.live.count ks
  count_of_ne : ∀ ksBlocker other, other ≠ ks → (rc'.keys ksBlocker).blocking.live.count other =
    (rc.keys ksBlocker).blocking.live.count other

/-- The key no longer waits for any other. -/
theorem forceUnblockKeyState_spec (blocked : ks ∈ rc.blockedKeys)
    (contained : (rc.keys ks).containingList = some .blockedKeys)
    (length : (rc.keys ks).blockedCount = blockers.length)
    (enough : ∀ ksBlocker, blockers.count ksBlocker ≤ (rc.keys ksBlocker).blocking.live.count ks) :
    ∃ rc', rc.forceUnblockKeyState ks blockers = .ok rc' ∧ rc.Unblocked ks blockers rc' := by
  obtain ⟨blocking, finished, counts⟩ := foldlM_removeBlocking enough
  have listed : (((rc.withBlocking blocking).modify ks ({ · with blockedCount := 0 })).keys
      ks).containingList = some .blockedKeys := by
    rw [modify_self]
    exact contained
  refine ⟨{ ((rc.withBlocking blocking).modify ks ({ · with blockedCount := 0 })).modify ks
    ({ · with containingList := none }) with blockedKeys := rc.blockedKeys.erase ks }, ?_, ?_⟩
  · rw [forceUnblockKeyState, if_pos length, finished]
    exact removeBlocked_eq blocked listed
  -- All fields but `blocking` are only altered for the key itself.
  have own : ∀ other, other = ks → (((rc.withBlocking blocking).modify ks
      ({ · with blockedCount := 0 })).modify ks ({ · with containingList := none })).keys other =
      { rc.keys other with
        blockedCount := 0
        containingList := none
        blocking := blocking other } := by
    rintro other rfl
    rw [modify_self, modify_self]
    rfl
  have others : ∀ other, other ≠ ks → (((rc.withBlocking blocking).modify ks
      ({ · with blockedCount := 0 })).modify ks ({ · with containingList := none })).keys other =
      { rc.keys other with blocking := blocking other } := by
    intro other different
    rw [modify_of_ne different, modify_of_ne different]
    rfl
  exact
    { blockedKeys := rfl
      queuedKeys := rfl
      valueState := by
        intro other
        by_cases same : other = ks
        · rw [own other same]
        · rw [others other same]
      evaluationQueue := by
        intro other
        by_cases same : other = ks
        · rw [own other same]
        · rw [others other same]
      containingList := by rw [own ks rfl]
      containingList_of_ne := by
        intro other different
        rw [others other different]
      blockedCount_of_ne := by
        intro other different
        rw [others other different]
      count := by
        intro ksBlocker
        rw [← (counts ksBlocker).1]
        by_cases same : ksBlocker = ks
        · rw [own ksBlocker same]
        · rw [others ksBlocker same]
      count_of_ne := by
        intro ksBlocker other different
        rw [← (counts ksBlocker).2 other different]
        by_cases same : ksBlocker = ks
        · rw [own ksBlocker same]
        · rw [others ksBlocker same] }

end RecursiveComputer

end Bonanza.Evaluation
