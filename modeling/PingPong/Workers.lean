import PingPong.MonitorState

namespace PingPong

open MonitorState (Worker)

/-- Two workers, each at a point of its loop, over what they share. -/
structure Workers (π ω : Type) where
  pc : Worker → π
  world : ω

namespace Workers

variable {π ω : Type}

@[simps world] def move (s : Workers π ω) (i : Worker) (pc : π) (w : ω) : Workers π ω :=
  ⟨Function.update s.pc i pc, w⟩

@[simp] theorem move_pc_self (s : Workers π ω) (i : Worker) (pc : π) (w : ω) :
    (s.move i pc w).pc i = pc := Function.update_self ..

@[simp] theorem move_pc_other (s : Workers π ω) (i : Worker) (pc : π) (w : ω) :
    (s.move i pc w).pc i.other = s.pc i.other := Function.update_of_ne i.other_ne ..

@[simp] theorem move_other_pc (s : Workers π ω) (i : Worker) (pc : π) (w : ω) :
    (s.move i.other pc w).pc i = s.pc i := Function.update_of_ne i.ne_other ..

@[simp] theorem move_pong_ping (s : Workers π ω) (pc : π) (w : ω) :
    (s.move .pong pc w).pc .ping = s.pc .ping := s.move_pc_other .pong pc w

@[simp] theorem move_ping_pong (s : Workers π ω) (pc : π) (w : ω) :
    (s.move .ping pc w).pc .pong = s.pc .pong := s.move_pc_other .ping pc w

theorem move_self (s : Workers π ω) (i : Worker) : s.move i (s.pc i) s.world = s := by
  rw [move, Function.update_eq_self]

end PingPong.Workers
