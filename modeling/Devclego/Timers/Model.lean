/-!
# The timers of `lib_interrupting.c`

The words have the widths of the source: `int32_t` arguments, the bit-fields of
`timeinterval_t`, the `int` that bit-fields of ten bits are promoted to, and `long` and
`time_t` of 64 bits. Of `timer_arm` the system calls are left out, which get the
`new_value` that is computed here.
-/
namespace Devclego.Timers

structure Timeinterval where
  s : BitVec 34
  ms : BitVec 10
  us : BitVec 10
  ns : BitVec 10
deriving DecidableEq, Repr

structure Timespec where
  tvSec : BitVec 64
  tvNsec : BitVec 64
deriving DecidableEq, Repr

structure Itimerspec where
  itInterval : Timespec
  itValue : Timespec
deriving DecidableEq, Repr

structure Timerfd where
  period : Timeinterval
  initial : Timeinterval
  newValue : Itimerspec
deriving DecidableEq, Repr

def setTimeinterval (s ms us ns : BitVec 32) : Timeinterval where
  s := s.signExtend 34
  ms := ms.setWidth 10
  us := us.setWidth 10
  ns := ns.setWidth 10

/-- The sum that `timer_arm` takes of the three small fields, in `int`. -/
def subseconds (t : Timeinterval) : BitVec 32 :=
  t.ms.setWidth 32 * 1000 * 1000 + t.us.setWidth 32 * 1000 + t.ns.setWidth 32

def timerArm (timer : Timerfd) (now : Timespec) : Timerfd where
  period := timer.period
  initial := timer.initial
  newValue :=
    { itValue :=
        { tvSec := now.tvSec + timer.initial.s.setWidth 64
          tvNsec := now.tvNsec + (subseconds timer.initial).signExtend 64 }
      itInterval :=
        { tvSec := timer.period.s.setWidth 64
          tvNsec := (subseconds timer.period).signExtend 64 } }

end Devclego.Timers
