import Anissagram.Accept
import Anissagram.Converge
import Anissagram.LinkMachine
import Anissagram.Orphans
import Anissagram.SignIn
import Anissagram.Independent
import Anissagram.SignUp
import Anissagram.Reload
import Anissagram.Memories
import Anissagram.CloudFunction
import Anissagram.Credentials
import Anissagram.Relaunch
import Anissagram.Delivery
import Anissagram.Settling
import Anissagram.Food
import Anissagram.Lookup
import Anissagram.RowView
import Anissagram.Counters
import Anissagram.LoveView
import Anissagram.ProfileView
import Anissagram.Firebase.FImmutableTree
import Anissagram.Lib.Overlay
import Anissagram.Firebase.FCompoundWrite
import Anissagram.Firebase.FWriteTree
import Anissagram.Firebase.ValueEvents
import Anissagram.Firebase.DeviceRuns
