import Bonanza.Lib.SyncWindow
import Bonanza.Lib.Transition
import Bonanza.Local.EpochList

/-! # Epochs as a window

The hash seeds of the epochs and the two counters of `PersistentEpochList` form
a `SyncWindow`: every method prunes, creates, seals or settles epochs
(`window_finalizeWriteUpToLocation` and its siblings). Together with the order
of the locations this gives an invariant of all methods (`WellFormed`), and
`wellFormed_of_run` states what it implies along any run.
-/

namespace Bonanza.Local

open List Option PersistentEpochList SyncWindow List.Sublist UInt64 Transition

variable {el : PersistentEpochList}

namespace PersistentEpochList

/-- The hash seeds of the epochs, with the number of those being synchronized. -/
def window (el : PersistentEpochList) : SyncWindow UInt64 where
  items := el.epochs.map (·.hashSeed)
  synchronizing := el.synchronizingEpochs
  synchronized := el.synchronizedEpochs

theorem finalizeWriteUpToLocation_cases (el : PersistentEpochList) (location hashSeed : UInt64) :
    el.closedForWriting = true ∧
      el.finalizeWriteUpToLocation location hashSeed = (.error storageShuttingDown, el) ∨
    el.closedForWriting = false ∧ el.Progresses location ∧
      el.finalizeWriteUpToLocation location hashSeed = (.ok (), el.progress location hashSeed) ∨
    el.closedForWriting = false ∧ ¬ el.Progresses location ∧
      el.epochs.length = el.synchronizingEpochs ∧
      el.finalizeWriteUpToLocation location hashSeed =
        (.ok (), el.appendEpoch hashSeed el.maximumLocation) ∨
    el.closedForWriting = false ∧ ¬ el.Progresses location ∧
      el.epochs.length ≠ el.synchronizingEpochs ∧
      el.finalizeWriteUpToLocation location hashSeed = (.ok (), el) := by
  unfold finalizeWriteUpToLocation
  cases closed : el.closedForWriting with
  | true => exact .inl ⟨rfl, rfl⟩
  | false =>
    by_cases progresses : el.Progresses location
    · simp [progresses]
    · by_cases idle : el.epochs.length = el.synchronizingEpochs <;> simp [progresses, idle]

variable {location : UInt64}

section Window

variable {el : PersistentEpochList} {epochID : UInt32} {epochState : EpochState}

@[simp] theorem window_prune (count : Nat) : (el.prune count).window = el.window.discard count := by
  simp [window, prune, SyncWindow.discard]

@[simp] theorem window_unblockWakeup : el.unblockWakeup.window = el.window := rfl

@[simp] theorem window_limitSpan (location : UInt64) :
    (el.limitSpan location).window = el.window := by
  unfold limitSpan
  split <;> rfl

theorem window_create (hashSeed : UInt64) : el.window.create hashSeed =
    if el.epochs.length = el.synchronizingEpochs then
      { el.window with items := el.window.items ++ [hashSeed] }
    else el.window := by
  simp [create, window]

theorem window_appendEpoch (hashSeed maximumLocation : UInt64)
    (idle : el.epochs.length = el.synchronizingEpochs) :
    (el.appendEpoch hashSeed maximumLocation).window = el.window.create hashSeed := by
  rw [window_create, if_pos idle]
  simp [window, appendEpoch]

theorem window_reinitialized (valid : el.window.Valid) :
    el.reinitialized.window = el.window.discard el.window.items.length := by
  have synchronizing := valid.synchronizing_le
  have synchronized := Nat.le_trans valid.synchronized_le synchronizing
  simp only [SyncWindow.discard, drop_length, Nat.sub_eq_zero_of_le synchronizing,
    Nat.sub_eq_zero_of_le synchronized]
  rfl

theorem window_extendEpoch (location hashSeed : UInt64) :
    (el.extendEpoch location hashSeed).window = el.window.create hashSeed := by
  unfold extendEpoch
  split
  · exact window_appendEpoch hashSeed location ‹_›
  rename_i unsealed
  rw [window_create, if_neg unsealed]
  simp only [window]
  rcases eq_nil_or_concat' el.epochs with none | ⟨earlier, last, split⟩
  · rw [none]
    rfl
  · rw [split, modifyLast_concat]
    simp

/-- A write prunes epochs, creates one unless there is a current one, and prunes again. -/
theorem window_finalizeWriteUpToLocation (valid : el.window.Valid) {hashSeed : UInt64}
    (succeeded : (el.finalizeWriteUpToLocation location hashSeed).1 = .ok ()) :
    ∃ first second, (el.finalizeWriteUpToLocation location hashSeed).2.window =
      ((el.window.discard first).create hashSeed).discard second := by
  rcases el.finalizeWriteUpToLocation_cases location hashSeed with
    ⟨_, result⟩ | ⟨_, _, result⟩ | ⟨_, _, idle, result⟩ | ⟨_, _, unsealed, result⟩ <;>
    rw [result] at succeeded ⊢
  · cases succeeded
  · simp only [progress, window_unblockWakeup, pruneStaleEpochs, window_prune, window_limitSpan,
      window_extendEpoch]
    split
    · exact ⟨el.window.items.length, _, by rw [window_reinitialized valid]⟩
    · exact ⟨0, _, rfl⟩
  · exact ⟨0, 0, window_appendEpoch hashSeed _ idle⟩
  · exact ⟨0, 0, ((window_create hashSeed).trans (if_neg unsealed)).symm⟩

theorem window_finalizeWriteUpToLocation_of_not_drawsSeed (undrawn : el.drawsSeed location = false)
    (hashSeed : UInt64) :
    ∃ count, (el.finalizeWriteUpToLocation location hashSeed).2.window =
      el.window.discard count := by
  rcases el.finalizeWriteUpToLocation_cases location hashSeed with
    ⟨_, result⟩ | ⟨accepting, progresses, result⟩ | ⟨accepting, _, idle, result⟩ |
      ⟨_, _, _, result⟩ <;> rw [result]
  · exact ⟨0, rfl⟩
  · simp only [drawsSeed, accepting, progresses, Bool.not_false, Bool.true_and, decide_true,
      Bool.or_eq_false_iff, decide_eq_false_iff_not] at undrawn
    obtain ⟨unwrapped, unsealed⟩ := undrawn
    simp only [progress, if_neg unwrapped, window_unblockWakeup, pruneStaleEpochs, window_prune,
      window_limitSpan, window_extendEpoch, window_create, if_neg unsealed]
    exact ⟨_, rfl⟩
  · simp [drawsSeed, accepting, idle] at undrawn
  · exact ⟨0, rfl⟩

theorem window_discardUpToLocation (location : UInt64) :
    ∃ count, (el.discardUpToLocation location).window = el.window.discard count := by
  unfold discardUpToLocation
  split
  · exact ⟨_, window_prune _⟩
  · exact ⟨0, rfl⟩

theorem window_notifySyncStarting (isFinalSync : Bool) :
    (el.notifySyncStarting isFinalSync).window = el.window.startSync := by
  simp [window, notifySyncStarting, startSync]

theorem map_hashSeed_persistEpochs (maximumLocation : UInt64) (epochs : List PersistentEpochInfo) :
    (persistEpochs maximumLocation epochs).map (·.hashSeed) = epochs.map (·.hashSeed) := by
  induction epochs generalizing maximumLocation with
  | nil => rfl
  | cons epoch epochs ih => simp only [persistEpochs, map_cons, ih]

theorem map_hashSeed_getPersistentState :
    el.getPersistentState.epochs.map (·.hashSeed) = el.window.settled := by
  simp [getPersistentState, map_hashSeed_persistEpochs, settled, window]

theorem hashSeed_mem_of_getEpochStateForEpochID
    (found : el.getEpochStateForEpochID epochID = some epochState) :
    epochState.hashSeed ∈ el.window.items := by
  simp only [getEpochStateForEpochID, ite_none_left_eq_some, map_eq_some_iff] at found
  obtain ⟨_, epoch, present, rfl⟩ := found
  exact mem_map_of_mem (mem_of_getElem? present)

theorem hashSeed_mem_of_getCurrentEpochState
    (found : el.getCurrentEpochState = some (epochState, epochID)) :
    epochState.hashSeed ∈ el.window.unsealed := by
  simp only [getCurrentEpochState, ite_none_left_eq_some, map_eq_some_iff] at found
  obtain ⟨_, epoch, present, same⟩ := found
  cases same
  simp only [unsealed, window, ← map_drop]
  refine mem_map_of_mem (mem_of_getElem? (i := 0) ?_)
  rwa [getElem?_drop, add_zero]

theorem window_reloadEpochs (maximumLocation : UInt64) (epochs : List PersistedEpoch) :
    (el.reloadEpochs maximumLocation epochs).window.items.Sublist
      (el.window.items ++ epochs.map (·.hashSeed)) := by
  induction epochs generalizing el maximumLocation with
  | nil =>
    rw [map_nil, append_nil]
    exact refl _
  | cons epoch epochs ih =>
    refine (ih _).trans ?_
    simp only [window, appendReloadedEpoch, appendEpoch, map_append, append_assoc]
    split
    · exact sublist_append_right _ _
    · exact refl _

end Window

/-! ## Locations -/

/-- Locations do not exceed the size of the device. -/
def SpanBounded (el : PersistentEpochList) : Prop :=
  el.maximumLocation - el.minimumLocation ≤ el.maximumLocationSpan

/-- The invariant of all methods. -/
structure WellFormed (el : PersistentEpochList) : Prop where
  valid : el.window.Valid
  increasing : el.epochs.Pairwise (·.maximumLocation ≤ ·.maximumLocation)
  above : ∀ epoch ∈ el.epochs, el.minimumLocation ≤ epoch.maximumLocation

variable {epochs : List PersistentEpochInfo} {last : PersistentEpochInfo}

theorem increasing_concat (increasing : epochs.Pairwise (·.maximumLocation ≤ ·.maximumLocation))
    (below : ∀ epoch ∈ epochs, epoch.maximumLocation ≤ last.maximumLocation) :
    (epochs ++ [last]).Pairwise (·.maximumLocation ≤ ·.maximumLocation) := by
  refine pairwise_append.mpr ⟨increasing, pairwise_singleton _ _, fun epoch member => ?_⟩
  exact forall_mem_singleton.mpr (below epoch member)

variable {earlier : List PersistentEpochInfo}

theorem maximumLocation_eq_of_concat (split : el.epochs = earlier ++ [last]) :
    el.maximumLocation = last.maximumLocation := by
  simp [maximumLocation, split]

variable {minimumLocation : UInt64}

theorem epochsToPrune_le (beyond : minimumLocation < last.maximumLocation)
    (earlier : List PersistentEpochInfo) :
    epochsToPrune minimumLocation (earlier ++ [last]) ≤ earlier.length := by
  induction earlier with
  | nil =>
    rw [nil_append, epochsToPrune, if_neg (UInt64.not_le.mpr beyond)]
    exact Nat.le_refl _
  | cons epoch earlier ih =>
    rw [cons_append, epochsToPrune]
    split
    · exact Nat.succ_le_succ ih
    · exact Nat.zero_le _

theorem lt_of_mem_drop_epochsToPrune
    (increasing : epochs.Pairwise (·.maximumLocation ≤ ·.maximumLocation)) :
    ∀ epoch ∈ epochs.drop (epochsToPrune minimumLocation epochs),
      minimumLocation < epoch.maximumLocation := by
  induction epochs with
      intro epoch member
  | nil =>
    cases member
  | cons first epochs ih =>
    rw [epochsToPrune] at member
    obtain ⟨smallest, increasing⟩ := pairwise_cons.mp increasing
    split at member
    · exact ih increasing epoch member
    · next beyond =>
      rcases mem_cons.mp member with rfl | later
      · exact UInt64.not_le.mp beyond
      · exact UInt64.lt_of_lt_of_le (UInt64.not_le.mp beyond) (smallest epoch later)

section Locations

variable {el : PersistentEpochList}

theorem minimumLocation_le_maximumLocation
    (above : ∀ epoch ∈ el.epochs, el.minimumLocation ≤ epoch.maximumLocation) :
    el.minimumLocation ≤ el.maximumLocation := by
  rcases eq_nil_or_concat' el.epochs with none | ⟨earlier, last, split⟩
  · simp [maximumLocation, none]
  · rw [maximumLocation_eq_of_concat split]
    exact above last (by simp [split])

variable (increasing : el.epochs.Pairwise (·.maximumLocation ≤ ·.maximumLocation))

include increasing

theorem le_maximumLocation : ∀ epoch ∈ el.epochs, epoch.maximumLocation ≤ el.maximumLocation := by
  rcases eq_nil_or_concat' el.epochs with none | ⟨earlier, last, split⟩
  · simp [none]
  intro epoch member
  rw [maximumLocation_eq_of_concat split]
  rw [split] at increasing member
  obtain ⟨_, _, ordered⟩ := pairwise_append.mp increasing
  rcases mem_append.mp member with before | own
  · exact ordered epoch before last mem_cons_self
  · rw [mem_singleton.mp own]
    exact UInt64.le_refl _

omit increasing in
theorem wellFormed_pruneStaleEpochs (valid : el.window.Valid)
    (increasing : el.epochs.Pairwise (·.maximumLocation ≤ ·.maximumLocation)) :
    el.pruneStaleEpochs.WellFormed where
  valid := by
    rw [pruneStaleEpochs, window_prune]
    exact valid.discard _
  increasing := increasing.drop
  above epoch member := UInt64.le_of_lt (lt_of_mem_drop_epochsToPrune increasing epoch member)

/-- Pruning does not change how far the epochs extend, except that the list
always extends up to its minimum location. -/
theorem spanBounded_pruneStaleEpochs
    (bounded : el.minimumLocation < el.maximumLocation → el.SpanBounded) :
    el.pruneStaleEpochs.SpanBounded := by
  rcases eq_nil_or_concat' el.pruneStaleEpochs.epochs with none | ⟨rest, last, split⟩
  · simp [SpanBounded, maximumLocation, none]
  have member : last ∈ el.epochs.drop (epochsToPrune el.minimumLocation el.epochs) := by
    change last ∈ el.pruneStaleEpochs.epochs
    simp [split]
  have beyond := lt_of_mem_drop_epochsToPrune increasing last member
  have same : el.maximumLocation = last.maximumLocation := by
    have suffix := drop_suffix (epochsToPrune el.minimumLocation el.epochs) el.epochs
    obtain ⟨before, joined⟩ := suffix
    have kept : el.epochs.drop (epochsToPrune el.minimumLocation el.epochs) = rest ++ [last] :=
      split
    rw [kept, ← append_assoc] at joined
    exact maximumLocation_eq_of_concat joined.symm
  rw [SpanBounded, maximumLocation_eq_of_concat split, ← same]
  exact bounded (same ▸ beyond)

omit increasing

theorem Progresses.lt (progresses : el.Progresses location)
    (unwrapped : ¬ location < el.maximumLocation) : el.maximumLocation < location := by
  refine UInt64.lt_of_le_of_ne (UInt64.not_lt.mp unwrapped) fun same => ?_
  rw [Progresses, same, sub_self] at progresses
  exact absurd progresses (by decide)

theorem extendEpoch_epochs (wellFormed : el.WellFormed) (location hashSeed : UInt64) :
    ∃ earlier seed, (el.extendEpoch location hashSeed).epochs = earlier ++ [⟨seed, location⟩] ∧
      earlier.Sublist el.epochs := by
  unfold extendEpoch
  split
  · exact ⟨el.epochs, hashSeed, rfl, refl _⟩
  rename_i unsealed
  rcases eq_nil_or_concat' el.epochs with none | ⟨earlier, last, split⟩
  · have bounded := wellFormed.valid.synchronizing_le
    simp only [window, none, map_nil, length_nil] at bounded unsealed
    omega
  · refine ⟨earlier, last.hashSeed, ?_, ?_⟩
    · simp [split, modifyLast_concat]
    · rw [split]
      exact sublist_append_left _ _

theorem increasing_extendEpoch (wellFormed : el.WellFormed) (beyond : el.maximumLocation < location)
    (hashSeed : UInt64) :
    (el.extendEpoch location hashSeed).epochs.Pairwise (·.maximumLocation ≤ ·.maximumLocation) := by
  obtain ⟨earlier, seed, split, sublist⟩ := extendEpoch_epochs wellFormed location hashSeed
  rw [split]
  refine increasing_concat (wellFormed.increasing.sublist sublist) fun epoch member => ?_
  exact UInt64.le_of_lt (UInt64.lt_of_le_of_lt
    (le_maximumLocation wellFormed.increasing epoch (sublist.subset member)) beyond)

@[simp] theorem epochs_limitSpan (location : UInt64) :
    (el.limitSpan location).epochs = el.epochs := by
  unfold limitSpan
  split <;> rfl

@[simp] theorem minimumLocation_extendEpoch (location hashSeed : UInt64) :
    (el.extendEpoch location hashSeed).minimumLocation = el.minimumLocation := by
  unfold extendEpoch
  split <;> rfl

@[simp] theorem maximumLocationSpan_extendEpoch (location hashSeed : UInt64) :
    (el.extendEpoch location hashSeed).maximumLocationSpan = el.maximumLocationSpan := by
  unfold extendEpoch
  split <;> rfl

@[simp] theorem maximumLocationSpan_limitSpan (location : UInt64) :
    (el.limitSpan location).maximumLocationSpan = el.maximumLocationSpan := by
  unfold limitSpan
  split <;> rfl

/-- Limiting the span leaves room for the last byte written, and no more than
the span. -/
theorem minimumLocation_limitSpan (positive : 0 < el.maximumLocationSpan)
    (beyond : el.minimumLocation < location) :
    (el.limitSpan location).minimumLocation < location ∧
      location - (el.limitSpan location).minimumLocation ≤ el.maximumLocationSpan := by
  unfold limitSpan
  split
  · next exceeded =>
    have fits : el.maximumLocationSpan ≤ location := by
      rw [gt_iff_lt, UInt64.lt_iff_toNat_lt, UInt64.toNat_sub_of_le _ _ (UInt64.le_of_lt beyond)]
        at exceeded
      rw [le_iff_toNat_le]
      omega
    have lower := UInt64.toNat_sub_of_le _ _ fits
    rw [lt_iff_toNat_lt] at positive
    rw [le_iff_toNat_le] at fits
    have below : location - el.maximumLocationSpan < location := by
      rw [lt_iff_toNat_lt]
      omega
    refine ⟨below, ?_⟩
    rw [UInt64.le_iff_toNat_le, UInt64.toNat_sub_of_le _ _ (UInt64.le_of_lt below)]
    omega
  · exact ⟨beyond, UInt64.not_lt.mp ‹_›⟩

variable (wellFormed : el.WellFormed)

include wellFormed

theorem wellFormed_beforeProgress (progresses : el.Progresses location) (nonzero : location ≠ 0) :
    let before := if location < el.maximumLocation then el.reinitialized else el
    before.WellFormed ∧ before.maximumLocation < location ∧
      before.maximumLocationSpan = el.maximumLocationSpan := by
  split
  · refine ⟨⟨?_, .nil, fun _ member => nomatch member⟩, UInt64.pos_iff_ne_zero.mpr nonzero, rfl⟩
    rw [window_reinitialized wellFormed.valid]
    exact wellFormed.valid.discard _
  · exact ⟨wellFormed, progresses.lt ‹_›, rfl⟩

omit wellFormed in
theorem length_pruneStaleEpochs (split : el.epochs = earlier ++ [last])
    (beyond : el.minimumLocation < last.maximumLocation)
    (current : el.epochs.length = el.synchronizingEpochs + 1) :
    el.pruneStaleEpochs.epochs.length = el.pruneStaleEpochs.synchronizingEpochs + 1 := by
  have bounded := epochsToPrune_le beyond earlier
  rw [← split] at bounded
  simp only [pruneStaleEpochs, prune, length_drop]
  rw [split, length_append, length_singleton] at current ⊢
  rw [split] at bounded
  omega

variable (positive : 0 < el.maximumLocationSpan)

include positive

/-- The list before a progressing write prunes it: the current epoch ends at the location written up
to, within the span. -/
theorem limitSpan_extendEpoch (beyond : el.maximumLocation < location) (hashSeed : UInt64) :
    let limited := (el.extendEpoch location hashSeed).limitSpan location
    limited.window = el.window.create hashSeed ∧
      limited.epochs.Pairwise (·.maximumLocation ≤ ·.maximumLocation) ∧
      (∃ earlier seed, limited.epochs = earlier ++ [⟨seed, location⟩]) ∧
      limited.minimumLocation < location ∧
      location - limited.minimumLocation ≤ limited.maximumLocationSpan ∧
      limited.maximumLocationSpan = el.maximumLocationSpan := by
  dsimp only
  have above : (el.extendEpoch location hashSeed).minimumLocation < location := by
    rw [minimumLocation_extendEpoch]
    exact UInt64.lt_of_le_of_lt (minimumLocation_le_maximumLocation wellFormed.above) beyond
  rw [← maximumLocationSpan_extendEpoch location hashSeed] at positive
  obtain ⟨below, within⟩ := minimumLocation_limitSpan positive above
  obtain ⟨earlier, seed, split, _⟩ := extendEpoch_epochs wellFormed location hashSeed
  rw [window_limitSpan, epochs_limitSpan, maximumLocationSpan_limitSpan]
  exact ⟨window_extendEpoch location hashSeed, increasing_extendEpoch wellFormed beyond hashSeed,
    ⟨earlier, seed, split⟩, below, within, maximumLocationSpan_extendEpoch location hashSeed⟩

theorem progress_spec (progresses : el.Progresses location) (nonzero : location ≠ 0)
    (hashSeed : UInt64) :
    (el.progress location hashSeed).WellFormed ∧ (el.progress location hashSeed).SpanBounded ∧
      (el.progress location hashSeed).maximumLocationSpan = el.maximumLocationSpan ∧
      (el.progress location hashSeed).epochs.length =
        (el.progress location hashSeed).synchronizingEpochs + 1 := by
  obtain ⟨before, beyond, span⟩ := wellFormed_beforeProgress wellFormed progresses nonzero
  unfold progress
  generalize (if location < el.maximumLocation then el.reinitialized else el) = start at *
  rw [← span] at positive ⊢
  obtain ⟨window, increasing, ⟨earlier, seed, split⟩, below, within, same⟩ :=
    limitSpan_extendEpoch before positive beyond hashSeed
  dsimp only
  generalize (start.extendEpoch location hashSeed).limitSpan location = limited at *
  have valid : limited.window.Valid := window ▸ before.valid.create hashSeed
  have current : limited.epochs.length = limited.synchronizingEpochs + 1 := by
    have created := before.valid.length_create hashSeed
    rw [← window] at created
    simpa only [PersistentEpochList.window, length_map] using created
  have pruned := wellFormed_pruneStaleEpochs valid increasing
  refine ⟨⟨pruned.valid, pruned.increasing, pruned.above⟩, ?_, same,
    length_pruneStaleEpochs split below current⟩
  refine spanBounded_pruneStaleEpochs increasing fun _ => ?_
  rw [SpanBounded, maximumLocation_eq_of_concat split]
  exact within

/-- Finalizing a write keeps the list well formed. -/
theorem finalizeWriteUpToLocation_spec (nonzero : location ≠ 0) (hashSeed : UInt64) :
    let result := el.finalizeWriteUpToLocation location hashSeed
    result.2.WellFormed ∧ result.2.maximumLocationSpan = el.maximumLocationSpan ∧
      (el.SpanBounded ∨ el.closedForWriting = false ∧ el.Progresses location →
        result.2.SpanBounded) ∧
      (result.1 = .ok () → result.2.getCurrentEpochState.isSome) := by
  have isSome : ∀ next : PersistentEpochList,
      next.epochs.length = next.synchronizingEpochs + 1 → next.getCurrentEpochState.isSome := by
    intro next current
    simp [getCurrentEpochState, current]
  rcases el.finalizeWriteUpToLocation_cases location hashSeed with
    ⟨closed, result⟩ | ⟨_, progresses, result⟩ | ⟨_, lower, idle, result⟩ |
      ⟨_, lower, unsealed, result⟩ <;> simp only [result]
  · refine ⟨wellFormed, trivial, ?_, nofun⟩
    rintro (bounded | ⟨accepting, _⟩)
    · exact bounded
    · cases closed.symm.trans accepting
  · obtain ⟨next, bounded, span, current⟩ :=
      progress_spec wellFormed positive progresses nonzero hashSeed
    exact ⟨next, span, fun _ => bounded, fun _ => isSome _ current⟩
  · have window := window_appendEpoch hashSeed el.maximumLocation idle
    have split : (el.appendEpoch hashSeed el.maximumLocation).epochs =
      el.epochs ++ [⟨hashSeed, el.maximumLocation⟩] := rfl
    refine ⟨⟨window ▸ wellFormed.valid.create hashSeed, ?_, ?_⟩, rfl, ?_, fun _ => isSome _ ?_⟩
    · exact increasing_concat wellFormed.increasing (le_maximumLocation wellFormed.increasing)
    · rw [split]
      intro epoch member
      rcases mem_append.mp member with earlier | own
      · exact wellFormed.above epoch earlier
      · rw [mem_singleton.mp own]
        exact minimumLocation_le_maximumLocation wellFormed.above
    · rintro (bounded | ⟨_, progresses⟩)
      · rw [SpanBounded, maximumLocation_eq_of_concat split]
        exact bounded
      · exact absurd progresses lower
    · simp only [split, length_append, length_singleton, idle]
      rfl
  · refine ⟨wellFormed, trivial, ?_, fun _ => isSome _ ?_⟩
    · rintro (bounded | ⟨_, progresses⟩)
      · exact bounded
      · exact absurd progresses lower
    · have := wellFormed.valid.synchronizing_le
      have := wellFormed.valid.length_le
      simp only [window, length_map] at *
      omega

omit positive

theorem wellFormed_discardUpToLocation (location : UInt64) :
    (el.discardUpToLocation location).WellFormed := by
  unfold discardUpToLocation
  split
  · obtain ⟨valid, increasing, above⟩ :=
      { el with minimumLocation := location }.wellFormed_pruneStaleEpochs wellFormed.valid
        wellFormed.increasing
    exact ⟨valid, increasing, above⟩
  · exact wellFormed

theorem spanBounded_discardUpToLocation (bounded : el.SpanBounded) (location : UInt64) :
    (el.discardUpToLocation location).SpanBounded := by
  unfold discardUpToLocation
  split
  · next raised =>
    refine { el with minimumLocation := location }.spanBounded_pruneStaleEpochs
      wellFormed.increasing fun below => ?_
    have same : { el with minimumLocation := location }.maximumLocation = el.maximumLocation := by
      rcases eq_nil_or_concat' el.epochs with none | ⟨earlier, last, split⟩
      · simp only [maximumLocation, none, getLast?_nil] at below
        exact absurd below (UInt64.lt_irrefl _)
      · simp [maximumLocation, split]
    have above := minimumLocation_le_maximumLocation wellFormed.above
    rw [same] at below
    rw [SpanBounded, UInt64.le_iff_toNat_le, UInt64.toNat_sub_of_le _ _ above] at bounded
    rw [SpanBounded, same, le_iff_toNat_le, UInt64.toNat_sub_of_le _ _ (UInt64.le_of_lt below)]
    rw [lt_iff_toNat_lt] at raised
    dsimp only
    omega
  · exact bounded

end Locations

/-- A list during the loop of `NewPersistentEpochList`: every epoch is settled and ends within the
maximum location so far. -/
structure Reloading (el : PersistentEpochList) (maximumLocation : UInt64) : Prop where
  increasing : el.epochs.Pairwise (·.maximumLocation ≤ ·.maximumLocation)
  below : ∀ epoch ∈ el.epochs, epoch.maximumLocation ≤ maximumLocation
  synchronizing : el.synchronizingEpochs = el.epochs.length
  synchronized : el.synchronizedEpochs = el.epochs.length

namespace Reloading

variable {el : PersistentEpochList} {maximumLocation : UInt64}
  (reloading : el.Reloading maximumLocation)

include reloading

theorem append (hashSeed : UInt64) :
    (el.appendReloadedEpoch hashSeed maximumLocation).Reloading maximumLocation where
  increasing := increasing_concat reloading.increasing reloading.below
  below := by
    intro other member
    rcases mem_append.mp member with earlier | own
    · exact reloading.below other earlier
    · rw [mem_singleton.mp own]
      exact UInt64.le_refl _
  synchronizing := by simp [appendReloadedEpoch, appendEpoch, reloading.synchronizing]
  synchronized := by simp [appendReloadedEpoch, appendEpoch, reloading.synchronized]

theorem raise {higher : UInt64} (raised : maximumLocation ≤ higher) : el.Reloading higher :=
  { reloading with
    below := fun epoch member => UInt64.le_trans (reloading.below epoch member) raised }

omit reloading in
theorem reinitialized (el : PersistentEpochList) (maximumLocation : UInt64) :
    el.reinitialized.Reloading maximumLocation where
  increasing := .nil
  below _ member := nomatch member
  synchronizing := rfl
  synchronized := rfl

theorem reloadEpochs (epochs : List PersistedEpoch) :
    ∃ final, (el.reloadEpochs maximumLocation epochs).Reloading final ∧
      (el.reloadEpochs maximumLocation epochs).maximumLocationSpan = el.maximumLocationSpan := by
  induction epochs generalizing el maximumLocation with
  | nil => exact ⟨maximumLocation, reloading, rfl⟩
  | cons epoch epochs ih =>
    rw [reloadEpochs]
    split
    · exact ih ((reinitialized el _).append epoch.hashSeed)
    · next fits => exact ih ((reloading.raise (UInt64.not_lt.mp fits)).append epoch.hashSeed)

theorem wellFormed : el.pruneStaleEpochs.WellFormed := by
  refine wellFormed_pruneStaleEpochs ⟨?_, ?_, ?_⟩ reloading.increasing <;>
    simp only [window, length_map, reloading.synchronizing, reloading.synchronized] <;> omega

end Reloading

end PersistentEpochList

open PersistentEpochList

theorem newPersistentEpochList_spec (maximumLocationSpan : UInt64) (state : PersistentState) :
    (newPersistentEpochList maximumLocationSpan state).WellFormed ∧
      (newPersistentEpochList maximumLocationSpan state).maximumLocationSpan = maximumLocationSpan ∧
      (newPersistentEpochList maximumLocationSpan state).synchronizedEpochs =
        (newPersistentEpochList maximumLocationSpan state).epochs.length := by
  have empty : (empty maximumLocationSpan state.minimumEpochID
      state.minimumLocation).Reloading state.minimumLocation :=
    ⟨.nil, by simp [empty], rfl, rfl⟩
  obtain ⟨_, reloaded, span⟩ := empty.reloadEpochs state.epochs
  refine ⟨reloaded.wellFormed, span, ?_⟩
  simp [newPersistentEpochList, pruneStaleEpochs, prune, reloaded.synchronized]

theorem window_newPersistentEpochList (maximumLocationSpan : UInt64) (state : PersistentState) :
    (newPersistentEpochList maximumLocationSpan state).window.items.Sublist
      (state.epochs.map (·.hashSeed)) := by
  rw [newPersistentEpochList, pruneStaleEpochs, window_prune]
  exact (drop_sublist _ _).trans (window_reloadEpochs _ _)

/-! ## Runs -/

/-- The calls that change an epoch list. `FinalizeWriteUpToLocation` comes with the hash seed it
would draw. -/
inductive EpochEvent where
  | finalizeWriteUpToLocation (location hashSeed : UInt64)
  | discardUpToLocation (location : UInt64)
  | notifySyncStarting (isFinalSync : Bool)
  | notifySyncCompleted
  deriving DecidableEq, Repr

/-- The effect of a call. -/
def PersistentEpochList.apply (el : PersistentEpochList) : EpochEvent → PersistentEpochList
  | .finalizeWriteUpToLocation location hashSeed =>
    (el.finalizeWriteUpToLocation location hashSeed).2
  | .discardUpToLocation location => el.discardUpToLocation location
  | .notifySyncStarting isFinalSync => el.notifySyncStarting isFinalSync
  | .notifySyncCompleted => el.notifySyncCompleted

/-- Calls as steps, all of which are possible. -/
def epochStep (el : PersistentEpochList) (event : EpochEvent) : Option PersistentEpochList :=
  some (el.apply event)

/-- If the call is a write, then not up to location zero. -/
def EpochEvent.Nonzero : EpochEvent → Prop
  | .finalizeWriteUpToLocation location _ => location ≠ 0
  | _ => True

/-- An accepted write that progresses the maximum location. -/
def EpochEvent.ProgressesAt (el : PersistentEpochList) : EpochEvent → Prop
  | .finalizeWriteUpToLocation location _ => el.closedForWriting = false ∧ el.Progresses location
  | _ => False

theorem PersistentEpochList.apply_spec (wellFormed : el.WellFormed)
    (positive : 0 < el.maximumLocationSpan) {event : EpochEvent} (nonzero : event.Nonzero) :
    (el.apply event).WellFormed ∧
      (el.apply event).maximumLocationSpan = el.maximumLocationSpan ∧
      (el.SpanBounded ∨ event.ProgressesAt el → (el.apply event).SpanBounded) := by
  cases event with
  | finalizeWriteUpToLocation location hashSeed =>
    obtain ⟨next, span, bounded, _⟩ :=
      finalizeWriteUpToLocation_spec wellFormed positive nonzero hashSeed
    exact ⟨next, span, bounded⟩
  | discardUpToLocation location =>
    refine ⟨wellFormed_discardUpToLocation wellFormed location, ?_, ?_⟩
    · simp only [apply, discardUpToLocation]
      split <;> rfl
    · rintro (bounded | none)
      · exact spanBounded_discardUpToLocation wellFormed bounded location
      · exact none.elim
  | notifySyncStarting isFinalSync =>
    refine ⟨⟨?_, wellFormed.increasing, wellFormed.above⟩, rfl, ?_⟩
    · rw [apply, window_notifySyncStarting]
      exact wellFormed.valid.startSync
    · exact fun bounded => bounded.elim id False.elim
  | notifySyncCompleted =>
    refine ⟨⟨?_, wellFormed.increasing, wellFormed.above⟩, rfl, ?_⟩
    · exact wellFormed.valid.completeSync
    · exact fun bounded => bounded.elim id False.elim

theorem PersistentEpochList.WellFormed.run {final : PersistentEpochList}
    (wellFormed : el.WellFormed) (positive : 0 < el.maximumLocationSpan) {events : List EpochEvent}
    (nonzero : ∀ event ∈ events, event.Nonzero)
    (reached : run epochStep el events = some final) :
    final.WellFormed ∧ final.maximumLocationSpan = el.maximumLocationSpan ∧
      (el.SpanBounded → final.SpanBounded) := by
  refine run_invariant_of_along
    (fun next : PersistentEpochList => next.WellFormed ∧
      next.maximumLocationSpan = el.maximumLocationSpan ∧ (el.SpanBounded → next.SpanBounded))
    ?_ ⟨wellFormed, rfl, id⟩ (Along.of_forall nonzero el) reached
  rintro state event next ⟨holds, span, bounded⟩ nonzero stepped
  cases stepped
  obtain ⟨kept, same, within⟩ := state.apply_spec holds (span ▸ positive) nonzero
  exact ⟨kept, same.trans span, fun start => within (.inl (bounded start))⟩

/-- After any calls, in any order and from any reloaded state, the counters and
the locations of the epochs are in order, and a write that succeeds can be
followed by `GetCurrentEpochState`. The epochs lie within the span if those that
were reloaded do, or once a write has progressed the maximum location. -/
theorem wellFormed_of_run {maximumLocationSpan : UInt64} (positive : 0 < maximumLocationSpan)
    (state : PersistentState) {events : List EpochEvent}
    (nonzero : ∀ event ∈ events, event.Nonzero) {final : PersistentEpochList}
    (reached : run epochStep (newPersistentEpochList maximumLocationSpan state) events =
      some final) :
    (final.synchronizedEpochs ≤ final.synchronizingEpochs ∧
      final.synchronizingEpochs ≤ final.epochs.length ∧
      final.epochs.length ≤ final.synchronizingEpochs + 1) ∧
    final.epochs.Pairwise (·.maximumLocation ≤ ·.maximumLocation) ∧
    (∀ epoch ∈ final.epochs, final.minimumLocation ≤ epoch.maximumLocation) ∧
    ((newPersistentEpochList maximumLocationSpan state).SpanBounded ∨
      (∃ before event after middle, events = before ++ event :: after ∧
        run epochStep (newPersistentEpochList maximumLocationSpan state) before =
          some middle ∧ event.ProgressesAt middle) →
      ∀ epoch ∈ final.epochs.getLast?,
        epoch.maximumLocation - final.minimumLocation ≤ maximumLocationSpan) ∧
    ∀ location hashSeed, location ≠ 0 →
      (final.finalizeWriteUpToLocation location hashSeed).1 = .ok () →
      (final.finalizeWriteUpToLocation location hashSeed).2.getCurrentEpochState.isSome := by
  obtain ⟨start, span, _⟩ := newPersistentEpochList_spec maximumLocationSpan state
  rw [← span] at positive
  obtain ⟨wellFormed, same, kept⟩ := start.run positive nonzero reached
  obtain ⟨synchronized_le, synchronizing_le, length_le⟩ := wellFormed.valid
  simp only [window, length_map] at synchronizing_le length_le
  refine ⟨⟨synchronized_le, synchronizing_le, length_le⟩, wellFormed.increasing, wellFormed.above,
    ?_, ?_⟩
  · intro within epoch last
    have bounded : final.SpanBounded := by
      rcases within with initially | ⟨before, event, after, middle, split, earlier, progresses⟩
      · exact kept initially
      rw [split] at nonzero reached
      obtain ⟨other, again, rest⟩ := (run_append_eq_some epochStep).mp reached
      cases earlier.symm.trans again
      obtain ⟨holds, middleSpan, _⟩ := start.run positive
        (fun other member => nonzero other (mem_append_left _ member)) earlier
      rw [← middleSpan] at positive
      obtain ⟨next, nextSpan, bounded⟩ := middle.apply_spec holds positive
        (nonzero event (mem_append_right _ mem_cons_self))
      rw [← nextSpan] at positive
      exact (next.run positive (fun other member => nonzero other
        (mem_append_right _ (mem_cons_of_mem _ member))) rest).2.2
        (bounded (.inr progresses))
    rw [SpanBounded, same, span, maximumLocation, mem_def.mp last] at bounded
    exact bounded
  · intro location hashSeed nonzero succeeded
    exact (finalizeWriteUpToLocation_spec wellFormed (same ▸ positive) nonzero
      hashSeed).2.2.2 succeeded

/-- Two writes around a synchronization, the first of which is discarded before
the second one is finalized. -/
theorem wellFormed_of_discard :
    ∃ final, run epochStep (newPersistentEpochList 1000 ⟨1, 0, []⟩)
        [.finalizeWriteUpToLocation 100 7, .notifySyncStarting false, .discardUpToLocation 500,
          .notifySyncCompleted, .finalizeWriteUpToLocation 200 8] = some final ∧
      final.synchronizingEpochs ≤ final.epochs.length ∧ final.epochs ≠ [] := by
  have positive : (0 : UInt64) < 1000 := by decide
  have reached : run epochStep (newPersistentEpochList 1000 ⟨1, 0, []⟩)
      [.finalizeWriteUpToLocation 100 7, .notifySyncStarting false, .discardUpToLocation 500,
        .notifySyncCompleted, .finalizeWriteUpToLocation 200 8] = some _ := rfl
  refine ⟨_, reached, ?_, by decide⟩
  refine (wellFormed_of_run positive ⟨1, 0, []⟩ ?_ reached).1.2.1
  simp [EpochEvent.Nonzero]

/-- Reloading does not enforce the span: the epochs of a state that was persisted
for a larger device remain. -/
theorem newPersistentEpochList_exceeds_span :
    ∃ epoch ∈ (newPersistentEpochList 10 ⟨1, 0, [⟨7, 1000⟩]⟩).epochs.getLast?,
      10 < epoch.maximumLocation -
        (newPersistentEpochList 10 ⟨1, 0, [⟨7, 1000⟩]⟩).minimumLocation :=
  ⟨⟨7, 1000⟩, rfl, by decide⟩

end Bonanza.Local
