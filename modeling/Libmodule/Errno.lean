import Mathlib.Data.Int.Notation

/-!
# Error numbers

The library reports errors as negated `errno` values.  These are the Linux
numbers of the ones it uses.
-/

namespace Libmodule

def EPERM : ℤ := 1
def ENOENT : ℤ := 2
def EINTR : ℤ := 4
def EAGAIN : ℤ := 11
def ENOMEM : ℤ := 12
def EACCES : ℤ := 13
def EEXIST : ℤ := 17
def EINVAL : ℤ := 22
def EPIPE : ℤ := 32

end Libmodule
