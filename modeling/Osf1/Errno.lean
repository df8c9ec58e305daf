import Mathlib

/-!
# Error numbers

The values that the modelled calls return.
-/

set_option autoImplicit false

namespace Osf1

/-- SRC: sys/errno.h:98-205 -/
def ESUCCESS : ℕ := 0

def EPERM : ℕ := 1

def ENOENT : ℕ := 2

def EINTR : ℕ := 4

def ENXIO : ℕ := 6

def E2BIG : ℕ := 7

def EDEADLK : ℕ := 11

def ENOMEM : ℕ := 12

def EACCES : ℕ := 13

def EFAULT : ℕ := 14

def EEXIST : ℕ := 17

def ENODEV : ℕ := 19

def EINVAL : ℕ := 22

def EFBIG : ℕ := 27

def ENOSPC : ℕ := 28

def ERANGE : ℕ := 34

def EAGAIN : ℕ := 35

def ENETDOWN : ℕ := 50

def ECONNRESET : ℕ := 54

def ENOBUFS : ℕ := 55

def ECONNREFUSED : ℕ := 61

def EHOSTUNREACH : ℕ := 65

def EDQUOT : ℕ := 69

def ENOLCK : ℕ := 77

def ENOMSG : ℕ := 80

def EIDRM : ℕ := 81

end Osf1
