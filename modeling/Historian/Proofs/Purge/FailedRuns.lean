import Historian.Proofs.Purge.Runs

/-!
# Runs that fail

A run stops where the backend fails.  What it has done by then stays done, and it does nothing more
but lower its flag.

* `PurgeManager.deletions`, `PurgeManager.Deletes` — what the targets ask the backend for, and what
  the store is after that.
* `PurgeManager.purgePoints_spec` — purging point by point stops at the first target whose old values
  cannot be deleted, by induction on the targets.
* `PurgeManager.Expires`, `PurgeManager.Fails` — what an expiry does that succeeds, and the places
  where a run may fail.
* `PurgeManager.run_error` — a run that fails has done what comes before such a place.
-/

set_option autoImplicit false

namespace Historian

theorem Capabilities.supports_of_require {capabilities : Capabilities} {c : Capability}
    (h : capabilities.require c = .ok ()) : capabilities.supports c = true := by
  unfold Capabilities.require at h
  split at h
  · assumption
  · cases h

namespace PurgeManager

variable {σ ω : Type} {b : Backend σ} {capabilities : Capabilities} {default : Option Period}
  {now : Timestamp}

/-- The deletions that the targets ask for, in their order. -/
def deletions (default : Option Period) (now : Timestamp) (targets : List PurgeTarget) :
    List (SeriesId × Timestamp) :=
  targets.filterMap fun t => (cutoffOf default now t).map fun c => (t.point.series, c)

theorem deletions_cons_of_no_cutoff {t : PurgeTarget} (h : cutoffOf default now t = none)
    (rest : List PurgeTarget) : deletions default now (t :: rest) = deletions default now rest := by
  simp [deletions, h]

theorem deletions_cons_of_cutoff {t : PurgeTarget} {c : Timestamp}
    (h : cutoffOf default now t = some c) (rest : List PurgeTarget) :
    deletions default now (t :: rest) = (t.point.series, c) :: deletions default now rest := by
  simp [deletions, h]

/-- The backend does these deletions, one after the other. -/
inductive Deletes (b : Backend σ) : List (SeriesId × Timestamp) → σ → σ → Prop
  | nil (s : σ) : Deletes b [] s s
  | cons {series : SeriesId} {cutoff : Timestamp} {rest : List (SeriesId × Timestamp)}
      {s mid s' : σ} {count : Option Nat}
      (hfirst : b.deleteWithin series ⟨none, some cutoff⟩ s = (.ok count, mid))
      (hrest : Deletes b rest mid s') : Deletes b ((series, cutoff) :: rest) s s'

/-- The old values of a series cannot be deleted: the backend has not declared that it can, and is
not asked, or it is asked and fails. -/
inductive CannotDelete (b : Backend σ) (capabilities : Capabilities) (series : SeriesId)
    (cutoff : Timestamp) (s : σ) : BackendFailure → σ → Prop
  | undeclared {e : BackendFailure} (h : capabilities.require .delete = .error e) :
      CannotDelete b capabilities series cutoff s e s
  | refused {e : BackendFailure} {s' : σ} (hdeclared : capabilities.supports .delete = true)
      (h : b.deleteWithin series ⟨none, some cutoff⟩ s = (.error e, s')) :
      CannotDelete b capabilities series cutoff s e s'

/-- What purging point by point comes to. -/
inductive Purging (b : Backend σ) (capabilities : Capabilities) (default : Option Period)
    (now : Timestamp) (targets : List PurgeTarget) (s : σ) :
    Except BackendFailure PurgeReport × σ → Prop
  /-- Every target has had its old values deleted. -/
  | done {report : PurgeReport} {s' : σ} (hall : Deletes b (deletions default now targets) s s') :
      Purging b capabilities default now targets s (.ok report, s')
  /-- The targets before one have had their old values deleted, and those of this one cannot be. -/
  | stopped (before : List PurgeTarget) {rest : List PurgeTarget} {t : PurgeTarget}
      {cutoff : Timestamp} {mid s' : σ} {e : BackendFailure} (htargets : targets = before ++ t :: rest)
      (hcutoff : cutoffOf default now t = some cutoff)
      (hbefore : Deletes b (deletions default now before) s mid)
      (hfails : CannotDelete b capabilities t.point.series cutoff mid e s') :
      Purging b capabilities default now targets s (.error e, s')

/-- A target without a cutoff asks for nothing. -/
theorem Purging.skip {t : PurgeTarget} {rest : List PurgeTarget} {s : σ}
    {result : Except BackendFailure PurgeReport × σ} (hcutoff : cutoffOf default now t = none)
    (h : Purging b capabilities default now rest s result) :
    Purging b capabilities default now (t :: rest) s result := by
  cases h with
  | done hall => exact .done (by rwa [deletions_cons_of_no_cutoff hcutoff])
  | stopped before htargets ht hbefore hfails =>
    exact .stopped (t :: before) (by rw [htargets, List.cons_append]) ht
      (by rwa [deletions_cons_of_no_cutoff hcutoff]) hfails

/-- A target whose old values are deleted comes first. -/
theorem Purging.delete {t : PurgeTarget} {rest : List PurgeTarget} {cutoff : Timestamp} {s mid : σ}
    {count : Option Nat} {result : Except BackendFailure PurgeReport × σ}
    (hcutoff : cutoffOf default now t = some cutoff)
    (hfirst : b.deleteWithin t.point.series ⟨none, some cutoff⟩ s = (.ok count, mid))
    (h : Purging b capabilities default now rest mid result) :
    Purging b capabilities default now (t :: rest) s result := by
  cases h with
  | done hall => exact .done (by rw [deletions_cons_of_cutoff hcutoff]; exact .cons hfirst hall)
  | stopped before htargets ht hbefore hfails =>
    exact .stopped (t :: before) (by rw [htargets, List.cons_append]) ht
      (by rw [deletions_cons_of_cutoff hcutoff]; exact .cons hfirst hbefore) hfails

theorem purgePoints_spec (b : Backend σ) (capabilities : Capabilities) (default : Option Period)
    (now : Timestamp) (targets : List PurgeTarget) :
    ∀ (report : PurgeReport) (s : σ), Purging b capabilities default now targets s
      (purgePoints b capabilities default now targets report s) := by
  induction targets with
  | nil => exact fun report s => .done (.nil s)
  | cons t rest ih =>
    intro report s
    unfold purgePoints
    split
    · next hcutoff => exact (ih report s).skip hcutoff
    · next cutoff hcutoff =>
      split
      · next e hrequire => exact .stopped [] rfl hcutoff (.nil s) (.undeclared hrequire)
      · next hrequire =>
        have hdeclared := Capabilities.supports_of_require hrequire
        split
        · next e s' hdelete =>
          exact .stopped [] rfl hcutoff (.nil s) (.refused hdeclared hdelete)
        · next count mid hdelete => exact (ih _ mid).delete hcutoff hdelete

/-! ## The period of the backend -/

/-- Lets the backend expire values. -/
def letExpire (b : Backend σ) (now : Timestamp) (report : PurgeReport) :
    Action (PurgeState σ ω) PurgeReport := fun st =>
  match b.enforceRetention now st.store with
  | (.error e, store) => (.error e, { st with store })
  | (.ok expired, store) =>
    (.ok { report with
        retentionApplied := true
        valuesDeleted := report.valuesDeleted + expired.getD 0 }, { st with store })

section

variable {p : Period} {report : PurgeReport} {store : σ} (st : PurgeState σ ω)

theorem applyRetention_of_applied (h : st.manager.applied = some p) :
    applyRetention b p now report st = letExpire b now report st := by
  unfold applyRetention
  rw [if_pos h]
  rfl

theorem applyRetention_of_ok (hnew : st.manager.applied ≠ some p)
    (h : b.setRetention p st.store = (.ok (), store)) :
    applyRetention b p now report st = letExpire b now report
      { st with store, manager := { st.manager with applied := some p } } := by
  unfold applyRetention
  rw [if_neg hnew, h]
  rfl

theorem applyRetention_of_error {e : BackendFailure} (hnew : st.manager.applied ≠ some p)
    (h : b.setRetention p st.store = (.error e, store)) :
    applyRetention b p now report st = (.error e, { st with store }) := by
  unfold applyRetention
  rw [if_neg hnew, h]

end

/-! ## An expiry -/

/-- The backend has the period: it was the last one handed over, or it takes it now. -/
inductive HandsOver (b : Backend σ) (applied : Option Period) (p : Period) (s : σ) : σ → Prop
  | before (h : applied = some p) : HandsOver b applied p s s
  | now {s' : σ} (hnew : applied ≠ some p) (h : b.setRetention p s = (.ok (), s')) :
      HandsOver b applied p s s'

/-- An expiry that succeeds, with the period that was last handed over after it. -/
inductive Expires (b : Backend σ) (targets : List PurgeTarget) (now : Timestamp)
    (m : PurgeManager) (s : σ) : Option Period → σ → Prop
  | points {s' : σ} (hpoints : b.purgesPoints s = true)
      (hall : Deletes b (deletions m.defaultPeriod now targets) s s') :
      Expires b targets now m s m.applied s'
  | native {p : Period} {mid s' : σ} {count : Option Nat} (hpoints : b.purgesPoints s = false)
      (hdefault : m.defaultPeriod = some p)
      (hdeclared : m.capabilities.supports .retentionPolicy = true)
      (hhanded : HandsOver b m.applied p s mid)
      (hexpired : b.enforceRetention now mid = (.ok count, s')) :
      Expires b targets now m s (some p) s'
  | nothing (hpoints : b.purgesPoints s = false)
      (hnative : m.defaultPeriod = none ∨ m.capabilities.supports .retentionPolicy = false) :
      Expires b targets now m s m.applied s

/-- A place where a run fails, with what it has done by then, and the period that was last handed
over. -/
inductive Fails (b : Backend σ) (targets : List PurgeTarget) (live : List SeriesId)
    (now : Timestamp) (m : PurgeManager) (s : σ) : BackendFailure → Option Period → σ → Prop
  /-- The targets before one have had their old values deleted, and those of this one cannot be. -/
  | target {before rest : List PurgeTarget} {t : PurgeTarget} {cutoff : Timestamp} {mid s' : σ}
      {e : BackendFailure} (hpoints : b.purgesPoints s = true)
      (htargets : targets = before ++ t :: rest)
      (hcutoff : cutoffOf m.defaultPeriod now t = some cutoff)
      (hbefore : Deletes b (deletions m.defaultPeriod now before) s mid)
      (hfails : CannotDelete b m.capabilities t.point.series cutoff mid e s') :
      Fails b targets live now m s e m.applied s'
  /-- The backend does not take the period. -/
  | handOver {p : Period} {s' : σ} {e : BackendFailure} (hpoints : b.purgesPoints s = false)
      (hdefault : m.defaultPeriod = some p)
      (hdeclared : m.capabilities.supports .retentionPolicy = true) (hnew : m.applied ≠ some p)
      (hfails : b.setRetention p s = (.error e, s')) :
      Fails b targets live now m s e m.applied s'
  /-- The backend has the period and does not let values expire. -/
  | enforce {p : Period} {mid s' : σ} {e : BackendFailure} (hpoints : b.purgesPoints s = false)
      (hdefault : m.defaultPeriod = some p)
      (hdeclared : m.capabilities.supports .retentionPolicy = true)
      (hhanded : HandsOver b m.applied p s mid)
      (hfails : b.enforceRetention now mid = (.error e, s')) :
      Fails b targets live now m s e (some p) s'
  /-- Everything has expired, and the orphans cannot be deleted. -/
  | orphans {applied : Option Period} {mid s' : σ} {e : BackendFailure}
      (hexpires : Expires b targets now m s applied mid)
      (hdeclared : m.capabilities.supports .deleteOrphaned = true)
      (hfails : b.deleteOrphaned live mid = (.error e, s')) :
      Fails b targets live now m s e applied s'

section

variable (targets : List PurgeTarget) (live : List SeriesId) (m : PurgeManager) (s : σ) (o : ω)

/-- What an expiry comes to. -/
inductive Expiry (b : Backend σ) (targets : List PurgeTarget) (live : List SeriesId)
    (now : Timestamp) (m : PurgeManager) (s : σ) (o : ω) :
    Except BackendFailure PurgeReport × PurgeState σ ω → Prop
  | done {report : PurgeReport} {applied : Option Period} {s' : σ}
      (h : Expires b targets now m s applied s') :
      Expiry b targets live now m s o (.ok report, ⟨{ m with applied }, s', o⟩)
  | stopped {e : BackendFailure} {applied : Option Period} {s' : σ}
      (h : Fails b targets live now m s e applied s') :
      Expiry b targets live now m s o (.error e, ⟨{ m with applied }, s', o⟩)

theorem letExpire_spec {p : Period} {mid : σ} (hpoints : b.purgesPoints s = false)
    (hdefault : m.defaultPeriod = some p)
    (hdeclared : m.capabilities.supports .retentionPolicy = true)
    (hhanded : HandsOver b m.applied p s mid) (report : PurgeReport) :
    Expiry b targets live now m s o
      (letExpire b now report ⟨{ m with applied := some p }, mid, o⟩) := by
  unfold letExpire
  split
  · next e s' henforce => exact .stopped (.enforce hpoints hdefault hdeclared hhanded henforce)
  · next count s' henforce => exact .done (.native hpoints hdefault hdeclared hhanded henforce)

theorem applyRetention_spec {p : Period} (hpoints : b.purgesPoints s = false)
    (hdefault : m.defaultPeriod = some p)
    (hdeclared : m.capabilities.supports .retentionPolicy = true) (report : PurgeReport) :
    Expiry b targets live now m s o (applyRetention b p now report ⟨m, s, o⟩) := by
  by_cases happlied : m.applied = some p
  · have hsame : { m with applied := some p } = m := by rw [← happlied]
    have hexpiry := @letExpire_spec σ ω b now targets live m s o p s hpoints hdefault hdeclared
      (.before happlied) report
    rw [hsame] at hexpiry
    rwa [applyRetention_of_applied ⟨m, s, o⟩ happlied]
  · rcases hset : b.setRetention p s with ⟨e | _, s'⟩
    · rw [applyRetention_of_error ⟨m, s, o⟩ happlied hset]
      exact .stopped (.handOver hpoints hdefault hdeclared happlied hset)
    · rw [applyRetention_of_ok ⟨m, s, o⟩ happlied hset]
      exact letExpire_spec targets live m s o hpoints hdefault hdeclared (.now happlied hset) report

theorem expire_spec (b : Backend σ) (now : Timestamp) :
    Expiry b targets live now m s o (expire b (.steady targets live) now ⟨m, s, o⟩) := by
  cases hpoints : b.purgesPoints s with
  | true =>
    have hpurge := purgePoints_spec b m.capabilities m.defaultPeriod now targets .blank s
    unfold expire
    rw [if_pos hpoints]
    show Expiry b targets live now m s o
      (let r := purgePoints b m.capabilities m.defaultPeriod now targets .blank s
       (r.1, ⟨m, r.2, o⟩))
    cases hresult : purgePoints b m.capabilities m.defaultPeriod now targets .blank s with
    | mk result s' =>
      rw [hresult] at hpurge
      cases hpurge with
      | done hall => exact .done (.points hpoints hall)
      | stopped before htargets hcutoff hbefore hfails =>
        exact .stopped (.target hpoints htargets hcutoff hbefore hfails)
  | false =>
    unfold expire
    rw [if_neg (by simp [hpoints])]
    dsimp only
    split
    · next p hdefault =>
      split
      · next hdeclared =>
        exact applyRetention_spec targets live m s o hpoints hdefault hdeclared _
      · next hnot => exact .done (.nothing hpoints (.inr (eq_false_of_ne_true hnot)))
    · next hdefault => exact .done (.nothing hpoints (.inl hdefault))

end

/-! ## A whole run -/

section

variable {catalog : Catalog (PurgeState σ ω)} {st st' : PurgeState σ ω}

/-- Goes on with the removal of orphans, if the expiry has succeeded. -/
def goOn (b : Backend σ) (catalog : Catalog (PurgeState σ ω)) :
    Except BackendFailure PurgeReport × PurgeState σ ω →
      Except BackendFailure PurgeReport × PurgeState σ ω
  | (.error e, st) => (.error e, st)
  | (.ok report, st) => removeOrphans b catalog report st

/-- The manager after a run that failed. -/
def lowered (manager : PurgeManager) : PurgeManager := { manager with isRunning := false }

/-- Lowers the flag, and counts the run if it has succeeded. -/
def conclude : Except BackendFailure PurgeReport × PurgeState σ ω →
    Except Failure (Option PurgeReport) × PurgeState σ ω
  | (.error e, st) => (.error (.ofBackend e), change lowered st)
  | (.ok report, st) => (.ok (some report), change ended st)

theorem run_of_idle (hidle : st.manager.isRunning = false) :
    run b catalog now st = conclude (goOn b catalog (expire b catalog now (change begun st))) := by
  rcases hexpire : expire b catalog now (change begun st) with ⟨e | report, st₁⟩
  · exact run_of_error hidle hexpire
  · rcases horphans : removeOrphans b catalog report st₁ with ⟨e | report', st₂⟩
    · have hexpire' : expire b catalog now (change (fun m => { m with isRunning := true }) st) =
          (.ok report, st₁) := hexpire
      simp only [run, hidle, Bool.false_eq_true, if_false, hexpire', horphans, goOn]
      rfl
    · rw [run_of_expire hidle hexpire horphans, goOn, horphans]
      rfl

theorem conclude_eq_error {r : Except BackendFailure PurgeReport × PurgeState σ ω} {f : Failure}
    (h : conclude r = (.error f, st')) :
    ∃ e st, r = (.error e, st) ∧ f = .ofBackend e ∧ st' = change lowered st := by
  rcases r with ⟨e | report, st⟩
  · obtain ⟨hf, hst⟩ := Prod.mk.inj h
    exact ⟨e, st, rfl, (Except.error.inj hf).symm, hst.symm⟩
  · cases h

end

section

variable {targets : List PurgeTarget} {live : List SeriesId} {m : PurgeManager} {s : σ}

/-- What an expiry does is the same with the flag up. -/
theorem Expires.of_begun {applied : Option Period} {s' : σ}
    (h : Expires b targets now m.begun s applied s') : Expires b targets now m s applied s' := by
  cases h with
  | points hpoints hall => exact .points hpoints hall
  | native hpoints hdefault hdeclared hhanded hexpired =>
    exact .native hpoints hdefault hdeclared hhanded hexpired
  | nothing hpoints hnative => exact .nothing hpoints hnative

theorem Fails.of_begun {e : BackendFailure} {applied : Option Period} {s' : σ}
    (h : Fails b targets live now m.begun s e applied s') :
    Fails b targets live now m s e applied s' := by
  cases h with
  | target hpoints htargets hcutoff hbefore hfails =>
    exact .target hpoints htargets hcutoff hbefore hfails
  | handOver hpoints hdefault hdeclared hnew hfails =>
    exact .handOver hpoints hdefault hdeclared hnew hfails
  | enforce hpoints hdefault hdeclared hhanded hfails =>
    exact .enforce hpoints hdefault hdeclared hhanded hfails
  | orphans hexpires hdeclared hfails => exact .orphans hexpires.of_begun hdeclared hfails

/-- Removing orphans fails only if the backend is asked and fails. -/
theorem removeOrphans_eq_error {report : PurgeReport} {e : BackendFailure} {st st' : PurgeState σ ω}
    (h : removeOrphans b (.steady targets live) report st = (.error e, st')) :
    st.manager.capabilities.supports .deleteOrphaned = true ∧
      ∃ s', b.deleteOrphaned live st.store = (.error e, s') ∧ st' = { st with store := s' } := by
  have hlive (st : PurgeState σ ω) : (Catalog.steady targets live).live st = (live, st) := rfl
  unfold removeOrphans at h
  split at h
  · next hdeclared =>
    simp only [hlive] at h
    split at h
    · next e' s' hdelete =>
      obtain ⟨he, hst⟩ := Prod.mk.inj h
      obtain rfl := Except.error.inj he
      exact ⟨hdeclared, s', hdelete, hst.symm⟩
    · cases h
  · cases h

/-- A run that fails has done what comes before the place where it fails.  Its manager is as it was,
but for the period handed over. -/
theorem run_error {o : ω} {f : Failure} {st : PurgeState σ ω} (hidle : m.isRunning = false)
    (hrun : run b (.steady targets live) now ⟨m, s, o⟩ = (.error f, st)) :
    ∃ e applied s', f = .ofBackend e ∧ st = ⟨{ m with applied }, s', o⟩ ∧
      Fails b targets live now m s e applied s' := by
  rw [run_of_idle hidle] at hrun
  obtain ⟨e, st₁, hend, rfl, rfl⟩ := conclude_eq_error hrun
  have hmanager (applied : Option Period) :
      lowered { m.begun with applied } = { m with applied } := by
    simp only [lowered, begun, hidle]
  have hspec := expire_spec targets live m.begun s o b now
  -- either the expiry has succeeded and the orphans could not be removed, or it has failed itself
  change goOn b _ (expire b (.steady targets live) now ⟨m.begun, s, o⟩) = _ at hend
  generalize expire b (.steady targets live) now ⟨m.begun, s, o⟩ = expiry at hspec hend
  cases hspec with
  | @done report applied s₁ hexpires =>
    obtain ⟨hdeclared, s', hdelete, rfl⟩ :=
      removeOrphans_eq_error (show removeOrphans b (.steady targets live) _ _ = _ from hend)
    exact ⟨e, applied, s', rfl, congrArg (PurgeState.mk · s' o) (hmanager applied),
      .orphans hexpires.of_begun hdeclared hdelete⟩
  | @stopped e' applied s' hfails =>
    obtain ⟨he, rfl⟩ := Prod.mk.inj hend
    obtain rfl := Except.error.inj he
    exact ⟨e', applied, s', rfl, congrArg (PurgeState.mk · s' o) (hmanager applied),
      hfails.of_begun⟩

end

end PurgeManager

end Historian
