import FirebaseLogin.TransitionSystem
import FirebaseLogin.KeyTree
import FirebaseLogin.Constants
import FirebaseLogin.UserModel
import FirebaseLogin.DataManager
import FirebaseLogin.ClientStore
import FirebaseLogin.MainForm
import FirebaseLogin.MainScreen
import FirebaseLogin.StoredData
import FirebaseLogin.SaveInFlight
import FirebaseLogin.LoadingEnds
import FirebaseLogin.FormClearing
import FirebaseLogin.SavedOnce
import FirebaseLogin.SortedEntries
import FirebaseLogin.SortedDictionary
import FirebaseLogin.ClientOrder
import FirebaseLogin.ConnectionRuns
import FirebaseLogin.StoreDelivery
import FirebaseLogin.PendingWrites
import FirebaseLogin.CallOrder
import FirebaseLogin.RepoWrites
import FirebaseLogin.SaveOutcome
import FirebaseLogin.Birthday
import FirebaseLogin.App
import FirebaseLogin.AppInvariant
import FirebaseLogin.LoginProgress
import FirebaseLogin.Session
import FirebaseLogin.LogoutFinal
