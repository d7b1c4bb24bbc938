import Colza.ServedStart

/-!
# One attempt of a start on servers in any state

Every server of the handle answers. All of them accept and keep what the start has done, or
those that have accepted are sent an abort.
-/
namespace ServedAttempts

open Interfaces ProviderHandlers ClientHandles DistributedStart ServedStart

variable {β : Type} {env : Environment β} {view : View} {w : Servers β}
  {h : DistributedPipelineHandle} {i : UInt64}

/-- The server accepts the start of this handle. -/
def accepts (env : Environment β) (w : Servers β) (h : DistributedPipelineHandle)
    (i : UInt64) (p : PipelineHandle) : Bool :=
  accepted ((servedBy env [] w).start h.groupHash (p, 0) i)

theorem accepts_of_reply {p : PipelineHandle} {r : RequestResult Int32}
    (hr : (start env (w (endpoint p)) h.groupHash p.name i).reply = some r) :
    accepts env w h i p = r.success := by
  simp [accepts, servedBy, hr, accepted]

theorem exists_place {p : PipelineHandle} (hp : p ∈ h.pipelines) : ∃ j, (p, j) ∈ servers h := by
  have hmem : p ∈ (servers h).map Prod.fst := by
    rw [servers, List.zipIdx_map_fst]
    exact hp
  obtain ⟨⟨p, j⟩, hj, rfl⟩ := List.mem_map.mp hmem
  exact ⟨j, hj⟩

/-- No RPC of an attempt fails to be answered. -/
theorem sendAborts_served (l : List (PipelineHandle × ℕ)) :
    sendAborts (fun p => (servedBy env view w).abort p i) l = l := by
  unfold sendAborts
  rw [List.filter_eq_self]
  exact fun _ _ => rfl

theorem waitAborts_served (l : List (PipelineHandle × ℕ)) :
    waitAborts (fun p => (servedBy env view w).abort p i) l = none := by
  induction l with
  | nil => rfl
  | cons x l ih => exact ih

/-- All servers accept, or those that do are aborted and the call retries where one of the
others has refused because of the hash. -/
theorem attempt_served (env : Environment β) (view : View) (w : Servers β)
    (h : DistributedPipelineHandle) (i : UInt64) :
    (∀ p ∈ h.pipelines, accepts env w h i p = true) ∧
      attempt (servedBy env view w) h i = .decided (servers h) true [] .returned ∨
    (∃ p ∈ h.pipelines, accepts env w h i p = false) ∧
      attempt (servedBy env view w) h i = .decided (servers h) false
        ((servers h).filter fun q => accepts env w h i q.1)
        (if (servers h).any fun q => hashRefused ((servedBy env view w).start h.groupHash q i)
          then .retry else .returned) := by
  have ho := runAttempt_outcome (fun q => (servedBy env view w).start h.groupHash q i)
    (fun q => (servedBy env view w).abort q i) (servers h)
  change DistributedStart.Outcome _ _ _ (attempt (servedBy env view w) h i) at ho
  generalize attempt (servedBy env view w) h i = a at ho
  cases ho with
  | threw e ht =>
    obtain ⟨q, -, hq⟩ := ht
    cases hq
  | accepted hall =>
    refine Or.inl ⟨fun p hp => ?_, rfl⟩
    obtain ⟨j, hj⟩ := exists_place hp
    exact hall (p, j) hj
  | refused exit hthrows hexists hexit =>
    rw [sendAborts_served] at hexit ⊢
    rw [hexit (waitAborts_served _)]
    obtain ⟨q, hq, hno⟩ := hexists
    exact Or.inr ⟨⟨q.1, mem_pipelines hq, hno⟩, rfl⟩

section Listed

variable (hn : (h.pipelines.map endpoint).Nodup)

include hn

theorem servers_nodup : ((servers h).map fun q => endpoint q.1).Nodup := by
  rw [servers_endpoints]
  exact hn

/-- Where all servers accept. -/
theorem afterAttempt_all (ha : attempt (servedBy env view w) h i =
      .decided (servers h) true [] .returned) {p : PipelineHandle} (hp : p ∈ h.pipelines) :
    afterAttempt env view w h i (endpoint p) =
      (start env (w (endpoint p)) h.groupHash p.name i).provider := by
  obtain ⟨j, hj⟩ := exists_place hp
  unfold afterAttempt
  rw [ha]
  exact updateAll_of_mem (servers_nodup hn) hj

/-- Where some server refuses. -/
theorem afterAttempt_some {exit : Exit} (ha : attempt (servedBy env view w) h i =
      .decided (servers h) false ((servers h).filter fun q => accepts env w h i q.1) exit)
    {p : PipelineHandle} (hp : p ∈ h.pipelines) :
    afterAttempt env view w h i (endpoint p) =
      let started := (start env (w (endpoint p)) h.groupHash p.name i).provider
      if accepts env w h i p then (abort env started p.name i).provider else started := by
  obtain ⟨j, hj⟩ := exists_place hp
  have hnodup := servers_nodup hn
  have hstarted : updateAll (fun q => endpoint q.1)
      (fun q s => (start env s h.groupHash q.1.name i).provider) (servers h) w (endpoint p) =
        (start env (w (endpoint p)) h.groupHash p.name i).provider :=
    updateAll_of_mem hnodup hj
  unfold afterAttempt
  rw [ha]
  simp only [Attempt.sent, Attempt.aborted]
  by_cases hacc : accepts env w h i p = true
  · have hmem : (p, j) ∈ (servers h).filter fun q => accepts env w h i q.1 :=
      List.mem_filter.mpr ⟨hj, hacc⟩
    rw [if_pos hacc, ← hstarted]
    exact updateAll_of_mem (hnodup.sublist (List.filter_sublist.map _)) hmem
  · rw [if_neg hacc, ← hstarted]
    refine updateAll_of_notMem ?_
    rw [List.mem_map]
    rintro ⟨q, hq, he⟩
    obtain ⟨hq, hqacc⟩ := List.mem_filter.mp hq
    have hqp : q.1 = p := List.inj_on_of_nodup_map hn (mem_pipelines hq) hp he
    rw [hqp] at hqacc
    exact hacc hqacc

end Listed

/-- Servers that the handle does not list are not asked. -/
theorem afterAttempt_other {v : Address × UInt16} (hv : v ∉ h.pipelines.map endpoint) :
    afterAttempt env view w h i v = w v := by
  have hv' : v ∉ (servers h).map fun q => endpoint q.1 := by rwa [servers_endpoints]
  unfold afterAttempt
  rcases attempt_served env view w h i with ⟨-, ha⟩ | ⟨-, ha⟩
  · rw [ha]
    exact updateAll_of_notMem hv'
  · rw [ha]
    simp only [Attempt.sent, Attempt.aborted]
    rw [updateAll_of_notMem, updateAll_of_notMem hv']
    exact fun hmem => hv' ((List.filter_sublist.map _).subset hmem)

end ServedAttempts
