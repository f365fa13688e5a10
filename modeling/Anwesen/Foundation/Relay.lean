import Mathlib.Data.List.Basic

/-! A store that several senders keep up to date by messages.

Messages travel in any order and may carry old values. The store settles when
each key it holds wrongly is still due to be read, or has its actual value in a
message under way.
-/

set_option autoImplicit false

namespace Anwesen.Foundation

variable {Store Key Value : Type}

/-- What is going on between the senders and the store. -/
structure Relay (Store Key Value : Type) where
  actual : Key → Value
  store : Store
  flight : List (Store → Store)
  due : Key → Prop

section

variable (read : Store → Key → Value)

/-- The message leaves a value at the key, whatever the store held. -/
def Carries (message : Store → Store) (key : Key) (value : Value) : Prop :=
  ∀ store, read (message store) key = value

namespace Relay

/-- A read of the key is due, or its actual value is under way. -/
def Expected (relay : Relay Store Key Value) (key : Key) : Prop :=
  relay.due key ∨ ∃ message ∈ relay.flight, Carries read message key (relay.actual key)

def Sound (relay : Relay Store Key Value) : Prop :=
  ∀ key, read relay.store key = relay.actual key ∨ relay.Expected read key

/-- The message outdates no entry that nothing else would repair. -/
def Timely (relay : Relay Store Key Value) (message : Store → Store) : Prop :=
  ∀ key, read (message relay.store) key = relay.actual key ∨
    read (message relay.store) key = read relay.store key ∨ relay.Expected read key

end Relay

end

namespace Relay

variable {read : Store → Key → Value} {relay next : Relay Store Key Value}

theorem Sound.settled (sound : relay.Sound read) (landed : relay.flight = [])
    (quiet : ∀ key, ¬ relay.due key) (key : Key) : read relay.store key = relay.actual key := by
  rcases sound key with holds | due | ⟨message, member, _⟩
  · exact holds
  · exact absurd due (quiet key)
  · rw [landed] at member
    cases member

/-- Values may change where a read becomes due. -/
theorem Sound.changed (sound : relay.Sound read) (store : next.store = relay.store)
    (flight : next.flight = relay.flight)
    (kept : ∀ key, relay.due key → next.due key)
    (noticed : ∀ key, next.actual key = relay.actual key ∨ next.due key) : next.Sound read := by
  intro key
  rcases noticed key with same | due
  · rw [Expected, store, flight, same]
    exact (sound key).imp_right (Or.imp_left (kept key))
  · exact .inr (.inl due)

/-- A read that was due is made: its value is sent, is held already, or is due again. -/
theorem Sound.sent (sound : relay.Sound read) (store : next.store = relay.store)
    (actual : next.actual = relay.actual) (flight : ∀ message ∈ relay.flight, message ∈ next.flight)
    (made : ∀ key, relay.due key → read next.store key = next.actual key ∨ next.Expected read key) :
    next.Sound read := by
  intro key
  rcases sound key with holds | due | ⟨message, member, carries⟩
  · exact .inl (by rw [store, actual, holds])
  · exact made key due
  · exact .inr (.inr ⟨message, flight message member, actual ▸ carries⟩)

/-- A message arrives that is timely for what remains. -/
theorem Sound.delivered (sound : relay.Sound read) {message : Store → Store}
    (actual : next.actual = relay.actual) (due : ∀ key, relay.due key → next.due key)
    (flight : ∀ other ∈ relay.flight, other = message ∨ other ∈ next.flight)
    (store : next.store = message relay.store)
    (timely : ({ next with store := relay.store } : Relay Store Key Value).Timely read message) :
    next.Sound read := by
  intro key
  rw [store]
  rcases timely key with fresh | same | expected
  · exact .inl fresh
  · rcases sound key with holds | waits | ⟨other, member, carries⟩
    · exact .inl (by rw [same, actual]; exact holds)
    · exact .inr (.inl (due key waits))
    · rcases flight other member with rfl | stays
      · exact .inl (by rw [actual]; exact carries relay.store)
      · exact .inr (.inr ⟨other, stays, actual ▸ carries⟩)
  · exact .inr expected

end Relay

end Anwesen.Foundation
