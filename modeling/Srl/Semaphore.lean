namespace Srl.Semaphore

def SEM_VALUE_MAX : Nat := 2147483647

/-- `sem_post`, which fails and changes nothing at the largest value. -/
def release (permits : Nat) : Nat := if permits < SEM_VALUE_MAX then permits + 1 else permits

theorem release_of_le (permits : Nat) (h : permits ≤ 1) : release permits = permits + 1 := by
  unfold release SEM_VALUE_MAX
  exact if_pos (by omega)

theorem release_pos (permits : Nat) : 0 < release permits := by
  unfold release SEM_VALUE_MAX
  split
  next => exact Nat.succ_pos _
  next => omega

end Srl.Semaphore
