import AwaitGlibc.Interleaving

/-! The semaphores of `nptl/sem_post.c` and `nptl/sem_waitcommon.c`, in both
variants. With 64-bit atomics one word holds the tokens in its low half and the
number of waiters in its high half. With 32-bit atomics the tokens share a word
with one bit that says whether there are waiters, and the waiters are counted
in a second word.

Each atomic operation and each futex call is one step; what a thread computes
between them belongs to the step before. A weak compare-and-swap may fail for
no reason, and a futex wait may return for no reason, be interrupted or time
out at any point. Memory is sequentially consistent. The high half and the
waiter count are not bounded: they never exceed the number of threads.

The counters `posted` and `waited` are not part of the program. They say how
many calls of each kind have returned zero. -/
namespace AwaitGlibc.Semaphore
open Interleaving

def semValueMax : ℕ := 2147483647

/-- The `definitive_result` of the fast path: `sem_trywait` retries, `sem_wait` and
`sem_timedwait` go on to the slow path. -/
abbrev Definitive := Bool

/-! ### 64-bit atomics -/

namespace Atomics64

/-- The 64-bit word by its halves: `d & SEM_VALUE_MASK` and
`d >> SEM_NWAITERS_SHIFT`. The loop of `__new_sem_post` keeps the low half from
reaching `2 ^ 32`, so adding one never carries. -/
structure Word where
  value : ℕ
  nwaiters : ℕ
deriving DecidableEq

structure Shared where
  data : Word
  posted : ℕ
  waited : ℕ
deriving DecidableEq

/-- Where a thread is. A local `d` is the variable of the source. -/
inductive Local where
  | idle
  /-- `__new_sem_post` before its load -/
  | postLoad
  /-- the loop of `__new_sem_post` -/
  | postLoop (d : Word)
  /-- `__new_sem_post` before `futex_wake` -/
  | postWake
  /-- `__new_sem_post` returns zero -/
  | postReturn
  /-- `__new_sem_wait_fast` before its load -/
  | fastLoad (definitive : Definitive)
  /-- the loop of `__new_sem_wait_fast` -/
  | fastLoop (definitive : Definitive) (d : Word)
  /-- `__new_sem_wait_slow64` before it adds a waiter -/
  | register
  /-- the loop of `__new_sem_wait_slow64` -/
  | slowLoop (d : Word)
  /-- asleep in `do_futex_wait` -/
  | asleep
  /-- woken, before `do_futex_wait` returns -/
  | woken
  /-- the load after `do_futex_wait` -/
  | reload
  /-- the wait failed; the waiter is not removed yet -/
  | unregister
  /-- the wait returns zero -/
  | waitReturn
deriving DecidableEq

inductive Step : Shared → Local → Shared → Local → Prop
  | post {g} : Step g .idle g .postLoad
  | postLoad {g} : Step g .postLoad g (.postLoop g.data)
  | postOverflow {g d} (h : d.value = semValueMax) : Step g (.postLoop d) g .idle
  | postAdd {g d} (h : d.value ≠ semValueMax) (hcas : g.data = d) :
      Step g (.postLoop d) { g with data := { d with value := d.value + 1 } }
        (if 0 < d.nwaiters then .postWake else .postReturn)
  | postRetry {g d} (h : d.value ≠ semValueMax) : Step g (.postLoop d) g (.postLoop g.data)
  | postReturn {g} : Step g .postReturn { g with posted := g.posted + 1 } .idle
  | wait {g} (definitive : Definitive) : Step g .idle g (.fastLoad definitive)
  | fastLoad {g definitive} : Step g (.fastLoad definitive) g (.fastLoop definitive g.data)
  | fastEmpty {g definitive d} (h : d.value = 0) :
      Step g (.fastLoop definitive d) g (if definitive then .idle else .register)
  | fastTake {g definitive d} (h : d.value ≠ 0) (hcas : g.data = d) :
      Step g (.fastLoop definitive d) { g with data := { d with value := d.value - 1 } } .waitReturn
  | fastRetry {g definitive d} (h : d.value ≠ 0) :
      Step g (.fastLoop definitive d) g
        (if definitive then .fastLoop definitive g.data else .register)
  | register {g} : Step g .register { g with data := { g.data with nwaiters := g.data.nwaiters + 1 } } (.slowLoop g.data)
  | sleep {g d} (h : d.value = 0) (hfutex : g.data.value = 0) : Step g (.slowLoop d) g .asleep
  | futexReturn {g d} (h : d.value = 0) : Step g (.slowLoop d) g .reload
  | futexFail {g d} (h : d.value = 0) : Step g (.slowLoop d) g .unregister
  | spurious {g} : Step g .asleep g .reload
  | timeout {g} : Step g .asleep g .unregister
  | woken {g} : Step g .woken g .reload
  | reload {g} : Step g .reload g (.slowLoop g.data)
  | slowTake {g d} (h : d.value ≠ 0) (hcas : g.data = d) :
      Step g (.slowLoop d) { g with data := ⟨d.value - 1, d.nwaiters - 1⟩ } .waitReturn
  | slowRetry {g d} (h : d.value ≠ 0) : Step g (.slowLoop d) g (.slowLoop g.data)
  | unregister {g} : Step g .unregister { g with data := { g.data with nwaiters := g.data.nwaiters - 1 } } .idle
  | waitReturn {g} : Step g .waitReturn { g with waited := g.waited + 1 } .idle

inductive Wake : Shared → Local → Unit → Amount → Local → Prop
  | post {g} : Wake g .postWake () (.upTo 1) .postReturn

def sleeping : Local → Option Unit
  | .asleep => some ()
  | _ => none

def program : Program Shared Local Unit where
  step := Step
  wake := Wake
  sleeping := sleeping
  woken _ := .woken
  wake_awake h := by cases h; rfl

end Atomics64

/-! ### 32-bit atomics -/

namespace Split32

structure Shared where
  value : ℕ
  nwaiters : ℕ
  posted : ℕ
  waited : ℕ
deriving DecidableEq

/-- `v >> SEM_VALUE_SHIFT`. -/
def tokens (v : ℕ) : ℕ := v / 2

/-- `v & SEM_NWAITERS_MASK`. -/
def waitersBit (v : ℕ) : ℕ := v % 2

/-- Where a thread is. `took` says whether the wait has a token, so that it returns
zero; `guess` whether `wguess` was one. -/
inductive Local where
  | idle
  | postLoad
  | postLoop (v : ℕ)
  | postWake
  | postReturn
  | fastLoad (definitive : Definitive)
  | fastLoop (definitive : Definitive) (v : ℕ)
  /-- `__new_sem_wait_slow64` before it adds a waiter -/
  | register
  /-- the first load of the value -/
  | load
  /-- the loop that sets the waiters bit -/
  | setBit (v : ℕ)
  /-- the waiters bit was seen or set; wait or take a token -/
  | bitSet (v : ℕ)
  | asleep
  | woken
  /-- the load after `do_futex_wait` -/
  | reload
  /-- `__sem_wait_32_finish` before it loads `wguess` -/
  | finish (took : Bool)
  /-- before the waiters bit is removed -/
  | clearBit (took : Bool)
  /-- before `nwaiters` is decremented -/
  | unregister (took guess : Bool)
  /-- before the waiters bit is set again -/
  | restoreBit (took : Bool)
  /-- before `futex_wake` for as many waiters as there are tokens -/
  | finishWake (took : Bool) (n : ℕ)
  | waitReturn (took : Bool)
deriving DecidableEq

inductive Step : Shared → Local → Shared → Local → Prop
  | post {g} : Step g .idle g .postLoad
  | postLoad {g} : Step g .postLoad g (.postLoop g.value)
  | postOverflow {g v} (h : tokens v = semValueMax) : Step g (.postLoop v) g .idle
  | postAdd {g v} (h : tokens v ≠ semValueMax) (hcas : g.value = v) :
      Step g (.postLoop v) { g with value := v + 2 }
        (if waitersBit v ≠ 0 then .postWake else .postReturn)
  | postRetry {g v} (h : tokens v ≠ semValueMax) : Step g (.postLoop v) g (.postLoop g.value)
  | postReturn {g} : Step g .postReturn { g with posted := g.posted + 1 } .idle
  | wait {g} (definitive : Definitive) : Step g .idle g (.fastLoad definitive)
  | fastLoad {g definitive} : Step g (.fastLoad definitive) g (.fastLoop definitive g.value)
  | fastEmpty {g definitive v} (h : tokens v = 0) :
      Step g (.fastLoop definitive v) g (if definitive then .idle else .register)
  | fastTake {g definitive v} (h : tokens v ≠ 0) (hcas : g.value = v) :
      Step g (.fastLoop definitive v) { g with value := v - 2 } (.waitReturn true)
  | fastRetry {g definitive v} (h : tokens v ≠ 0) :
      Step g (.fastLoop definitive v) g
        (if definitive then .fastLoop definitive g.value else .register)
  | register {g} : Step g .register { g with nwaiters := g.nwaiters + 1 } .load
  | load {g} : Step g .load g (.setBit g.value)
  | bitSeen {g v} (h : waitersBit v ≠ 0) : Step g (.setBit v) g (.bitSet v)
  | setBit {g v} (h : waitersBit v = 0) (hcas : g.value = v) :
      Step g (.setBit v) { g with value := v + 1 } (.bitSet v)
  | setBitRetry {g v} (h : waitersBit v = 0) : Step g (.setBit v) g (.setBit g.value)
  | sleep {g v} (h : tokens v = 0) (hfutex : g.value = 1) : Step g (.bitSet v) g .asleep
  | futexReturn {g v} (h : tokens v = 0) : Step g (.bitSet v) g .reload
  | futexFail {g v} (h : tokens v = 0) : Step g (.bitSet v) g (.finish false)
  | spurious {g} : Step g .asleep g .reload
  | timeout {g} : Step g .asleep g (.finish false)
  | woken {g} : Step g .woken g .reload
  | reload {g} : Step g .reload g
      -- the bit is looked at again only when there is no token
      (if tokens g.value = 0 then .setBit g.value else .bitSet g.value)
  | slowTake {g v} (h : tokens v ≠ 0) (hcas : g.value = v) :
      Step g (.bitSet v) { g with value := v - 2 } (.finish true)
  | slowRetry {g v} (h : tokens v ≠ 0) : Step g (.bitSet v) g (.setBit g.value)
  | guess {g took} : Step g (.finish took) g
      (if g.nwaiters = 1 then .clearBit took else .unregister took false)
  | clearBit {g took} :
      Step g (.clearBit took) { g with value := g.value - waitersBit g.value }
        (.unregister took true)
  | unregister {g took guess} :
      Step g (.unregister took guess) { g with nwaiters := g.nwaiters - 1 }
        (if 1 < g.nwaiters ∧ guess then .restoreBit took else .waitReturn took)
  | restoreBit {g took} :
      Step g (.restoreBit took) { g with value := g.value + 1 - waitersBit g.value }
        (if 0 < tokens g.value then .finishWake took (tokens g.value) else .waitReturn took)
  | waitReturn {g} : Step g (.waitReturn true) { g with waited := g.waited + 1 } .idle
  | waitFail {g} : Step g (.waitReturn false) g .idle

inductive Wake : Shared → Local → Unit → Amount → Local → Prop
  | post {g} : Wake g .postWake () (.upTo 1) .postReturn
  | finish {g took n} : Wake g (.finishWake took n) () (.upTo n) (.waitReturn took)

def sleeping : Local → Option Unit
  | .asleep => some ()
  | _ => none

def program : Program Shared Local Unit where
  step := Step
  wake := Wake
  sleeping := sleeping
  woken _ := .woken
  wake_awake h := by cases h <;> rfl

end Split32

end AwaitGlibc.Semaphore
