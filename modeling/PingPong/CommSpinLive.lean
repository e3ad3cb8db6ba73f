import PingPong.CommSpinToken
import PingPong.Fairness

namespace PingPong.CommSpinLive

open MonitorState (Worker)
open CommSpin CommSpinToken TransitionSystem TokenRing Fairness

variable {m : Mode} {s s' : State} {t : Token Worker} {i j : Worker}

theorem do_thread_work_eq (m : Mode) (i : Worker) : ∃ code body,
    (∀ w pc, pc ≠ .count → m.do_thread_work i w pc =
      storeAndWait (value i) (value i.other) code body (top i) i w pc) ∧
    ∀ w r, m.do_thread_work i w .count = some r → r.2 = .store := by
  cases i with
  | ping =>
    obtain ⟨code, body, he⟩ := comm_ping_eq m
    refine ⟨code, body, fun w pc hpc => ?_, fun w r hr => ?_⟩
    · rw [Mode.do_thread_work, he, pingLoop_eq hpc]
      rfl
    · rw [Mode.do_thread_work, he] at hr
      obtain rfl := Option.some.inj hr
      rfl
  | pong =>
    obtain ⟨code, body, he⟩ := comm_pong_eq m
    refine ⟨code, body, fun w pc _ => by rw [Mode.do_thread_work, he]; rfl, fun w r hr => ?_⟩
    rw [Mode.do_thread_work, he] at hr
    cases hr

theorem top_ne_body (i : Worker) : top i ≠ .body := by cases i <;> nofun

theorem storeAndWait_ne_body {val awaited : Int} {code : Code} {next : Pc} {who : Worker}
    {w : World} {pc : Pc} {r : World × Pc} (hnext : next ≠ .body)
    (h : storeAndWait val awaited code none next who w pc = some r) : r.2 ≠ .body := by
  cases pc with
  | count | body => cases h
  | store | sync =>
    obtain rfl := Option.some.inj h
    nofun
  | test =>
    obtain rfl := Option.some.inj h
    by_cases hv : w.var = awaited
    · simpa [hv] using hnext
    · simp [hv, again]

theorem next_count (h : s.pc .ping = .count) : CommSpin.next m .ping s =
    some (s.move .ping .store { s.world with ping_count := s.world.ping_count + 1 }) := by
  obtain ⟨code, body, he⟩ := comm_ping_eq m
  rw [CommSpin.next, Mode.do_thread_work, he, h]
  rfl

theorem next_store (h : s.pc i = .store) :
    CommSpin.next m i s = some (s.move i .sync (s.world.store i (value i))) := by
  obtain ⟨code, body, he, -⟩ := do_thread_work_eq m i
  simp [CommSpin.next, h, he, storeAndWait]

theorem next_sync (h : s.pc i = .sync) : ∃ code : Code,
    CommSpin.next m i s = some (s.move i .test (code.exec i s.world)) := by
  obtain ⟨code, body, he, -⟩ := do_thread_work_eq m i
  exact ⟨code, by simp [CommSpin.next, h, he, storeAndWait]⟩

theorem next_see (h : s.pc i = .test) (hv : s.world.var = value i.other) :
    CommSpin.next m i s = some (s.move i (top i) (s.world.see i)) := by
  obtain ⟨code, body, he, -⟩ := do_thread_work_eq m i
  simp [CommSpin.next, h, he, storeAndWait, hv]

theorem next_body (hs : Reachable (system m) s) (h : s.pc i = .body) : ∃ code : Code,
    CommSpin.next m i s = some (s.move i .test (code.exec i s.world)) := by
  obtain ⟨code, body, he, hcount⟩ := do_thread_work_eq m i
  have hbody : s.pc i = .body → body ≠ none := by
    refine hs.invariant (I := fun s => s.pc i = .body → body ≠ none) ?_ fun s j t hI hn ht => ?_
    · rintro _ rfl
      cases i <;> nofun
    · obtain ⟨r, hr, rfl⟩ := Option.map_eq_some_iff.mp hn
      obtain rfl | rfl := i.eq_or_other j
      · rw [Workers.move_pc_self] at ht
        by_cases hc : s.pc j = .count
        · rw [hc] at hr
          exact absurd ((hcount _ _ hr).symm.trans ht) nofun
        · rw [he _ _ hc] at hr
          rintro rfl
          exact storeAndWait_ne_body (top_ne_body j) hr ht
      · exact hI (by simpa using ht)
  obtain ⟨c, rfl⟩ := Option.ne_none_iff_exists'.mp (hbody h)
  exact ⟨c, by simp [CommSpin.next, h, he, storeAndWait]⟩

def rank (s : State) (i : Worker) : Nat :=
  match s.pc i with
  | .store | .test => 0
  | .count | .sync | .body => 1

theorem next_who (hs : Reachable (system m) s) (h : Rel s t) : ∃ s',
    (system m).next (t.passer Worker.other) s = some s' ∧
      (s.world.history.length < s'.world.history.length ∨
        rank s' (t.passer Worker.other) < rank s (t.passer Worker.other)) := by
  cases t with
  | held i =>
    obtain hc | hst := (h.busy i).mpr rfl
    · cases i with
      | ping => exact ⟨_, next_count hc, .inr (by simp [rank, Token.passer, hc])⟩
      | pong => exact absurd hc h.pong
    · exact ⟨_, next_store hst, .inl (by simp)⟩
  | passed i =>
    have hbusy : ¬ (s.pc i.other = .count ∨ s.pc i.other = .store) :=
      fun hb => by cases (h.busy i.other).mp hb
    cases hpc : s.pc i.other with
    | count | store => simp [hpc] at hbusy
    | sync =>
      obtain ⟨code, hcode⟩ := next_sync hpc
      exact ⟨_, hcode, .inr (by simp [rank, Token.passer, hpc])⟩
    | body =>
      obtain ⟨code, hcode⟩ := next_body hs hpc
      exact ⟨_, hcode, .inr (by simp [rank, Token.passer, hpc])⟩
    | test =>
      have hv : s.world.var = value i.other.other := by simpa [writer] using h.var
      exact ⟨_, next_see hpc hv, .inl (by simp)⟩

def driven (m : Mode) : Driven (system m) (ring Worker.other (.held .ping))
    (fun s => s.world.history.map move) Rel fun i _ a => a = id i :=
  .ofHelper (CommSpinToken.simulation m) (fun t _ => t.passer Worker.other)
    (fun t s => rank s (t.passer Worker.other))
    (fun hs hR => by simpa using next_who hs hR) <| by
    rintro s s' t a hs hR ha hn
    obtain ⟨r, -, rfl⟩ := Option.map_eq_some_iff.mp hn
    obtain rfl | rfl := (t.passer Worker.other).eq_or_other a
    · exact absurd rfl ha
    · exact .inr (.inr ⟨by simp [rank], rfl⟩)

/-- With a scheduler that forgets neither of the workers, the variable is handed back and
forth for ever. -/
theorem pings_forever (m : Mode) (e : Execution (system m))
    (hfair : ∀ i, e.Fair fun _ a => a = i) (n : Nat) :
    ∃ k, ∀ i, n ≤ (stores (e.state k).world.history).count i :=
  (driven m).passes_forever Worker.other_involutive Worker.eq_or_other e hfair n

/-- The workers step in turn. -/
theorem pings_forever_yield : ∃ e : Execution (system .yield), ∃ k, ∀ i,
    1000 ≤ (stores (e.state k).world.history).count i :=
  ⟨_, pings_forever .yield (schedule (system .yield) rfl (turns .ping [.pong]))
    (fun i => turns_fair rfl (by cases i <;> simp)) 1000⟩

end PingPong.CommSpinLive
