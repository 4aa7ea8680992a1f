/-! Session and size limits shared by the protocol engines. -/
namespace Ionosphere.Core

def maxCommandLine : Nat := 4096
def maxPipelinePendingBytes : Nat := 1024 * 1024
def maxRcptPerSession : Nat := 1000
def maxSmtpErrorsPerSession : Nat := 20
def maxMessageBytes : Nat := 25 * 1024 * 1024
def maxImapLineBytes : Nat := 64 * 1024
def maxPreauthLiteralBytes : Nat := 8 * 1024
def maxQueuedLineBytes : Nat := 1024 * 1024
def maxMimeParts : Nat := 1024
def maxMimeDepth : Nat := 20

end Ionosphere.Core
