namespace StopTheWorld

/-- A barrier that is used again and again by a changing number of parties. It moves to its next
phase when as many have arrived as there are parties.

Nothing ties an arrival to a party: the phaser counts, and it is for its users to arrive once per
phase and party. -/
structure Phaser where
  parties : Nat := 0
  arrived : Nat := 0
  phase : Nat := 0
  deriving DecidableEq, Inhabited

namespace Phaser

def register (phaser : Phaser) : Phaser := { phaser with parties := phaser.parties + 1 }

def advance (phaser : Phaser) : Phaser :=
  { phaser with arrived := 0, phase := phaser.phase + 1 }

/-- One more arrival would complete the phase. -/
def IsLast (phaser : Phaser) : Prop := phaser.parties ≤ phaser.arrived + 1

instance (phaser : Phaser) : Decidable phaser.IsLast :=
  inferInstanceAs (Decidable (phaser.parties ≤ phaser.arrived + 1))

/-- The last arrival moves the phaser on; any other is counted and has to wait. -/
def arrive (phaser : Phaser) : Phaser :=
  if phaser.IsLast then phaser.advance else { phaser with arrived := phaser.arrived + 1 }

/-- A party leaves without waiting. If only arrivals remain, they are let go. -/
def depart (phaser : Phaser) : Phaser :=
  let rest := { phaser with parties := phaser.parties - 1 }
  if 0 < rest.arrived ∧ rest.parties ≤ rest.arrived then rest.advance else rest

@[simp] theorem register_parties (phaser : Phaser) :
    phaser.register.parties = phaser.parties + 1 := rfl

@[simp] theorem register_arrived (phaser : Phaser) :
    phaser.register.arrived = phaser.arrived := rfl

@[simp] theorem register_phase (phaser : Phaser) : phaser.register.phase = phaser.phase := rfl

@[simp] theorem arrive_parties (phaser : Phaser) : phaser.arrive.parties = phaser.parties := by
  unfold arrive advance
  split <;> rfl

@[simp] theorem depart_parties (phaser : Phaser) : phaser.depart.parties = phaser.parties - 1 := by
  unfold depart advance
  dsimp only
  split <;> rfl

/-- An arrival moves the phase exactly when it is the last one. -/
theorem arrive_phase (phaser : Phaser) :
    phaser.arrive.phase = if phaser.IsLast then phaser.phase + 1 else phaser.phase := by
  unfold arrive advance
  split <;> rfl

theorem depart_phase_le (phaser : Phaser) : phaser.depart.phase ≤ phaser.phase + 1 := by
  unfold depart advance
  dsimp only
  split <;> simp

end Phaser

end StopTheWorld
