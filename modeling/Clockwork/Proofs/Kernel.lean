import Clockwork.Concurrency.Kernel

namespace Clockwork

namespace Scheduler

variable {κ τ : Type}

@[simp] theorem tasks_wake (s : Scheduler κ τ) (w : Waker) : (s.wake w).tasks = s.tasks := by
  cases w <;> rfl

@[simp] theorem tasks_wakeAll (s : Scheduler κ τ) (ws : List Waker) :
    (s.wakeAll ws).tasks = s.tasks := by
  induction ws generalizing s with
  | nil => rfl
  | cons w ws ih => exact (ih (s.wake w)).trans (s.tasks_wake w)

end Scheduler

namespace Kernel

variable {κ ε τ : Type} (k : Kernel κ ε τ)

def tasks : Table Nat τ := k.scheduler.tasks

@[simp] theorem tasks_wakeAll (ws : List Waker) : (k.wakeAll ws).tasks = k.tasks :=
  k.scheduler.tasks_wakeAll ws

@[simp] theorem tasks_wake? (w : Option Waker) : (k.wake? w).tasks = k.tasks :=
  k.tasks_wakeAll w.toList

@[simp] theorem tasks_setChannel (id : Nat) (c : Channel Value) :
    (k.setChannel id c).tasks = k.tasks := rfl

@[simp] theorem tasks_setLock (id : Nat) (l : Lock) : (k.setLock id l).tasks = k.tasks := rfl

@[simp] theorem tasks_setEvent (id : Nat) (e : Event ε) : (k.setEvent id e).tasks = k.tasks := rfl

@[simp] theorem tasks_tryGet (id : Nat) : (k.tryGet id).1.tasks = k.tasks := by
  rcases h : (k.channel id).tryGet with ⟨c, item, woken⟩
  simp [tryGet, h]

@[simp] theorem tasks_tryPut (id : Nat) (v : Value) : (k.tryPut id v).1.tasks = k.tasks := by
  rcases h : (k.channel id).tryPut v with _ | ⟨c, woken⟩
  · simp [tryPut, h]
  · simp [tryPut, h]

@[simp] theorem tasks_tryAcquire (id : Nat) : (k.tryAcquire id).1.tasks = k.tasks := rfl

theorem tasks_release {id : Nat} {k' : Kernel κ ε τ} (h : k.release id = .ok k') :
    k'.tasks = k.tasks := by
  unfold release at h
  split at h
  · cases h
    exact tasks_wake? _ _
  · cases h

@[simp] theorem tasks_setFlag (id : Nat) : (k.setFlag id).1.tasks = k.tasks := by
  rcases h : (k.event id).set with ⟨e, woken⟩
  simp [setFlag, h]

@[simp] theorem tasks_clearFlag (id : Nat) : (k.clearFlag id).tasks = k.tasks := rfl

@[simp] theorem tasks_poll (waker : Waker) (w : Wait) : (k.poll waker w).1.tasks = k.tasks := by
  cases w with
  | sleep delay entry =>
      simp only [poll]
      cases entry with
      | none => rfl
      | some seq =>
          simp only [Scheduler.pollSleep]
          by_cases h : seq ∈ k.scheduler.fired
          · rw [if_pos h]
            rfl
          · rw [if_neg h]
            rfl
  | get id ticket =>
      simp only [poll]
      cases (k.channel id).pollGet ticket waker <;> simp
  | put id v ticket =>
      simp only [poll]
      cases (k.channel id).pollPut v ticket waker <;> simp
  | acquire id ticket =>
      simp only [poll]
      cases (k.lock id).poll ticket waker <;> simp
  | event id start ticket =>
      simp only [poll]
      cases (k.event id).poll start ticket waker <;> simp

@[simp] theorem tasks_abandon (w : Wait) : (k.abandon w).tasks = k.tasks := by
  cases w with
  | sleep delay entry => cases entry <;> rfl
  | get id ticket => simp [abandon]
  | put id v ticket => simp [abandon]
  | acquire id ticket => simp [abandon]
  | event id start ticket => rfl

end Kernel

end Clockwork
