/-! The `errno` values that the servers tell apart, with their numbers on Linux. -/

namespace SimpleSrv

/-- `errno` for something that does not exist. -/
def enoent : Int := 2

/-- `errno` of a call that a signal interrupted. -/
def eintr : Int := 4

/-- `errno` for a number that is no open descriptor. -/
def ebadf : Int := 9

/-- `errno` of a call that would have to block. -/
def eagain : Int := 11

/-- `errno` for something that exists already. -/
def eexist : Int := 17

/-- `errno` of a write that nobody can read any more, beside which `SIGPIPE` is raised. -/
def epipe : Int := 32

/-- `errno` of a connection attempt on a socket that is connected. -/
def eisconn : Int := 106

/-- `errno` of a connection attempt on a socket whose earlier one still goes on. -/
def ealready : Int := 114

/-- `errno` of a connection attempt that goes on in the background. -/
def einprogress : Int := 115

/-- What a system call returns, its `errno` meaning something only beside a negative value. -/
structure Answer where
  value : Int
  errno : Int
  deriving DecidableEq, Repr

end SimpleSrv
